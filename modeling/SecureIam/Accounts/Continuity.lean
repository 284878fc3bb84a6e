import SecureIam.Accounts.Durability
import SecureIam.Services.Alone
import SecureIam.Tokens.Rotation

/-!
A client that always presents the last token it was given stays logged in, whatever
others do: no walk leaves the family of the presented token.
-/
namespace SecureIam
open Lib
variable {env : Environment} {rows rows' : List RefreshToken} {family : List String}
    {hashes : List String}
  {a : Uuid} {T : RefreshToken} {p p' : Calls env} {req : Request} {out : Except Error Response}

/-- A path to a row that exists already was there before. -/
theorem Evolves.links_back (he : Evolves rows rows') {n : Nat} {id : Uuid}
    (hl : rotation.Links rows' n id T.id) (hT : T ∈ rows) : rotation.Links rows n id T.id := by
  induction n generalizing T with
  | zero => exact hl
  | succ n ih =>
      obtain ⟨c, hc, q, hq, rfl, hnext⟩ := hl
      obtain ⟨q₀, hq₀, hid, hnext₀⟩ := he.links q hq T hT hnext
      have hback : rotation.Links rows n id q₀.id := ih (hid.symm ▸ hc) hq₀
      exact ⟨q₀.id, hback, q₀, hq₀, rfl, hnext₀⟩

/-- So the rows that lead to it were there, too. -/
theorem Evolves.row_back (he : Evolves rows rows') (hrows' : Families rows') {n : Nat}
    {r : RefreshToken} (hr : r ∈ rows') (hl : rotation.Links rows' n r.id T.id) (hT : T ∈ rows) :
    ∃ r₀ ∈ rows, r₀.Evolves r ∧ rotation.Links rows n r₀.id T.id := by
  have hback := he.links_back hl hT
  have hold : ∃ r₀ ∈ rows, r₀.id = r.id := by
    cases n with
    | zero => exact ⟨T, hT, hback.symm⟩
    | succ n =>
        obtain ⟨c, ⟨r₀, hr₀, hid, -⟩, -⟩ := Chaining.links_succ_left.mp hback
        exact ⟨r₀, hr₀, hid⟩
  obtain ⟨r₀, hr₀, hid⟩ := hold
  obtain ⟨r₁, hr₁, hev⟩ := he.kept r₀ hr₀
  obtain rfl := hrows'.row_unique hr₁ hr (hev.id.trans hid)
  exact ⟨r₀, hr₀, hev, hid.symm ▸ hback⟩

/-- The family of login `a` ends in the unrevoked row `T`, and its hashes are known. -/
structure Carries (rows : List RefreshToken) (hashes : List String) (a : Uuid) (T : RefreshToken) :
    Prop where
  mem : T ∈ rows
  live : T.revokedAt = none
  latest : hashes.head? = some T.tokenHash
  root : ∃ n, rotation.Links rows n a T.id
  known : ∀ n, ∀ r ∈ rows, rotation.Links rows n r.id T.id → r.tokenHash ∈ hashes

namespace Carries

theorem stays (h : Carries rows hashes a T) (hrows : Families rows) (hrows' : Families rows')
    (he : Evolves rows rows') (hT : T ∈ rows') : Carries rows' hashes a T := by
  refine ⟨hT, h.live, h.latest, ?_, fun n r hr hl => ?_⟩
  · obtain ⟨n, hl⟩ := h.root
    exact ⟨n, he.links_mono hrows hl⟩
  · obtain ⟨r₀, hr₀, hev, hback⟩ := he.row_back hrows' hr hl h.mem
    exact hev.tokenHash ▸ h.known n r₀ hr₀ hback

/-- A rotation of the last token. -/
theorem rotates (h : Carries rows hashes a T) (hrows : Families rows) (hrows' : Families rows')
    (he : Evolves rows rows') {T' child : RefreshToken} (hT' : T' ∈ rows') (hid : T'.id = T.id)
    (hnext : T'.replacedBy = some child.id) (hchild : child ∈ rows')
    (hlive : child.revokedAt = none) :
    Carries rows' (child.tokenHash :: hashes) a child := by
  have hlink : rotation.Link rows' T.id child.id := ⟨T', hT', hid, hnext⟩
  refine ⟨hchild, hlive, rfl, ?_, fun n r hr hl => ?_⟩
  · obtain ⟨n, hl⟩ := h.root
    exact ⟨n + 1, T.id, he.links_mono hrows hl, hlink⟩
  · cases n with
    | zero =>
        obtain rfl := hrows'.row_unique hr hchild hl
        exact List.mem_cons_self
    | succ n =>
        obtain ⟨c, hc, hcl⟩ := hl
        obtain rfl := hrows'.linear.link_injective hcl hlink
        obtain ⟨r₀, hr₀, hev, hback⟩ := he.row_back hrows' hr hc h.mem
        exact List.mem_cons_of_mem _ (hev.tokenHash ▸ h.known n r₀ hr₀ hback)

end Carries

/-- Other calls leave the tokens alone. -/
theorem Calls.Reachable.served_tokens (hp : p.Reachable) (hτ : .refreshTokens ∉ req.tables)
    (hs : Served (serve env) p req out p') : p'.world.tokens = p.world.tokens := by
  have ha : .refreshTokenReuseDetected ∉ req.actions := by
    cases req <;> simp [Request.tables, Request.actions] at hτ ⊢
  have hfree : (serve env req).All Stmt.TokenFree :=
    Program.All.ensure (tokenFree_of_uses (call_uses req) hτ ha)
      (Program.all_issue (S := sql) (o := .rollback) trivial)
  obtain ⟨l, w, hrun, rfl⟩ := hs.ran
  have hkeeps := Program.run_keeps (I := fun (l : Session) (w : History env Request) =>
    TokenInv w ∧ InSession p.threads.length l w ∧ l.TokenFree ∧ w.tokens = p.world.tokens) ?_ hfree
      ⟨hp.inv, start_inSession hp.inv.sound fun e he => Nat.ne_of_lt (hp.sound.owner e he),
        fun _ hv => (by cases hv), rfl⟩ hrun
  · exact hkeeps.2.2.2
  · intro o l w r w' l' ho h hexec
    obtain ⟨hinv, hsession, hfree, htokens⟩ := h
    obtain ⟨hinv', htokens', hfree'⟩ := hinv.tokenFree hsession hfree hexec ho
    exact ⟨hinv', exec_inSession hsession hexec, hfree', htokens'.trans htokens⟩

/-- What the client of a login's family has been given after a call: its strings, the last
one first. The server tells strings apart by their hashes. -/
def received (env : Environment) (family : List String) : Request × Except Error Response →
    List String
  | (.refresh (.text x), .ok (.tokens r)) =>
      if env.sha256 x ∈ family.map env.sha256 then r.refreshToken :: family else family
  | _ => family

/-- The call neither logs a token of the family out nor presents an old one. -/
def Spares (env : Environment) (family : List String) : Request → Prop
  | .logout (.text x) => env.sha256 x ∉ family.map env.sha256
  | .refresh (.text x) =>
      env.sha256 x ∈ family.map env.sha256 → (family.map env.sha256).head? = some (env.sha256 x)
  | _ => True

instance (env : Environment) (family : List String) :
    (req : Request) → Decidable (Spares env family req)
  | .logout (.text _) => inferInstanceAs (Decidable (_ ∉ _))
  | .refresh (.text _) => inferInstanceAs (Decidable (_ ∈ _ → _))
  | .logout (.surrogate _ _ _) | .refresh (.surrogate _ _ _) | .register _ _ | .login _ _
  | .authorize _ _ _ _ | .createRole _ _ _ _ | .assignRole _ _ _ _ | .revokeRole _ _ _ _
  | .assignPermissionToRole _ _ _ | .removePermissionFromRole _ _ _ | .getUserPermissions _ _
  | .createOrganization _ _ | .addMember _ _ _ | .removeMember _ _ _ | .listMembers _
  | .listOrganizationsForUser _ | .listEvents _ _ _ | .setIsActive _ _ =>
      inferInstanceAs (Decidable True)

/-- None of the calls gives a cause to revoke the family. -/
def NoCause (env : Environment) : List String → List (Request × Except Error Response) → Prop
  | _, [] => True
  | family, c :: calls => Spares env family c.1 ∧ NoCause env (received env family c) calls

instance (env : Environment) :
    (family : List String) → (calls : List (Request × Except Error Response)) →
    Decidable (NoCause env family calls)
  | _, [] => inferInstanceAs (Decidable True)
  | family, c :: calls =>
      have : Decidable (NoCause env (received env family c) calls) :=
        instDecidableNoCause env _ calls
      inferInstanceAs (Decidable (_ ∧ _))

/-- A presented token of the family is its last one. -/
theorem Spares.presents {x : String} (h : Spares env family (.refresh x))
    (hc : Carries rows (family.map env.sha256) a T) (hx : env.sha256 x ∈ family.map env.sha256) :
    T.tokenHash = env.sha256 x :=
  Option.some.inj (hc.latest.symm.trans (h hx))

/-- What a refresh that succeeds does to the rows. -/
structure Renews (env : Environment) (x : String) (r : TokenResponse)
    (rows rows' : List RefreshToken) (T child : RefreshToken) : Prop where
  presented : T ∈ rows
  hash : T.tokenHash = env.sha256 x
  only : ∀ T' ∈ rows, T'.tokenHash = env.sha256 x → T' = T
  owner : child.userId = T.userId
  given : child.tokenHash = env.sha256 r.refreshToken
  live : child.revokedAt = none
  fresh : ∀ T' ∈ rows, T'.id ≠ child.id
  effect : ∃ now, rows' = (rows.map fun r =>
    if r = T then { r with revokedAt := some now, replacedBy := some child.id } else r) ++ [child]

theorem Renewal.renews {t t' : Tables} {x : String} {r : TokenResponse} {n n' : Nat}
    {versions : List Tables} (h : Renewal env t x n n' (.ok r) versions) (ht : t.Schema)
    (hhead : versions.head? = some t') :
    ∃ T child, Renews env x r t.refreshTokens t'.refreshTokens T child := by
  cases h with
  | @rotated T hT hlive hvalid howner k j m hk hj hm childId hid child hchild t₁ ht₁ accessToken
      id now =>
      have htokens : t'.refreshTokens = t₁.refreshTokens :=
        (congrArg Tables.refreshTokens (Option.some.inj hhead)).symm.trans
          (Tables.recorded_refreshTokens _ _ _ _)
      have hfresh : ∀ τ, ¬ t.hasKey (.primary τ child.id) := hchild ▸ hid
      refine ⟨T, child, hT.mem, hT.hash, hT.only, hchild ▸ rfl, hchild ▸ rfl, hchild ▸ rfl,
        fun T' hT' heq => ?_, env.clock m, ?_⟩
      · exact hfresh .refreshTokens
          (Tables.hasKey_iff.mpr ⟨.refreshTokens, T', hT', by simp [Table.keys, heq]⟩)
      · rw [htokens, ht₁]
        exact rotated_map ht hT.mem _ hfresh

section Steps
variable (hp : p.Reachable) (hd : env.Distinct)
include hp

theorem Carries.served_same (hc : Carries p.world.tokens hashes a T)
    (hs : Served (serve env) p req out p') (hT : T ∈ p'.world.tokens) :
    Carries p'.world.tokens hashes a T :=
  hc.stays hp.inv.families (hp.reaches hs.reaches).inv.families (hp.evolves hs.reaches) hT

/-- The last token is presented, and the new one takes its place. -/
theorem Carries.renews {x : String} {r : TokenResponse} {child : RefreshToken}
    (hc : Carries p.world.tokens hashes a T) (hs : Served (serve env) p (.refresh x) out p')
    (h : Renews env x r p.world.tokens p'.world.tokens T child) :
    Carries p'.world.tokens (env.sha256 r.refreshToken :: hashes) a child := by
  obtain ⟨now, heffect⟩ := h.effect
  have hold : { T with revokedAt := some now, replacedBy := some child.id } ∈ p'.world.tokens :=
    heffect ▸ List.mem_append_left _ (List.mem_map.mpr ⟨T, hc.mem, if_pos rfl⟩)
  have hnew : child ∈ p'.world.tokens := heffect ▸ List.mem_append_right _
    (List.mem_singleton_self child)
  rw [← h.given]
  exact hc.rotates hp.inv.families (hp.reaches hs.reaches).inv.families (hp.evolves hs.reaches)
    hold rfl rfl hnew h.live

/-- Another token is logged out. -/
theorem Carries.loggedOut {x : String} (hc : Carries p.world.tokens (family.map env.sha256) a T)
    (h : Spares env family (.logout x)) (hs : Served (serve env) p (.logout x) out p') :
    Carries p'.world.tokens (family.map env.sha256) a T := by
  refine hc.served_same hp hs ?_
  obtain ⟨out', n', versions, -, -, hfarewell, hhead⟩ := hp.sound.left hs
  cases hfarewell.tokens hhead with
  | inl hsame =>
      rw [World.tokens, tokensOf, hsame]
      exact hc.mem
  | inr hrevoked =>
      obtain ⟨T', m, hT', heffect⟩ := hrevoked
      rw [World.tokens, tokensOf, heffect]
      refine List.mem_map.mpr ⟨T, hc.mem, if_neg fun hid => h ?_⟩
      rw [← hT'.hash, ← hp.inv.families.row_unique hc.mem hT'.mem hid]
      exact List.mem_of_head? hc.latest

theorem Carries.entered {email password : String} (hc : Carries p.world.tokens hashes a T)
    (hs : Served (serve env) p (.login email password) out p') :
    Carries p'.world.tokens hashes a T := by
  refine hc.served_same hp hs ?_
  obtain ⟨out', n', versions, -, -, hentrance, hhead⟩ := hp.sound.entered hs
  cases hentrance.tokens hhead with
  | inl hsame =>
      rw [World.tokens, tokensOf, hsame.1]
      exact hc.mem
  | inr hadded =>
      obtain ⟨r, token, -, hadded, -⟩ := hadded
      rw [World.tokens, tokensOf, hadded]
      exact List.mem_append_left _ hc.mem

/-- A login opens a family of one token. -/
theorem carries_of_login {email password : String} {r : TokenResponse}
    (hs : Served (serve env) p (.login email password) (.ok (.tokens r)) p') :
    ∃ T, Carries p'.world.tokens [env.sha256 r.refreshToken] T.id T := by
  obtain ⟨out', n', versions, hout, -, hentrance, hhead⟩ := hp.sound.entered hs
  cases hentrance.tokens hhead with
  | inl hfailed =>
      obtain ⟨-, e, rfl⟩ := hfailed
      cases hout
  | inr hadded =>
      obtain ⟨r', token, rfl, hadded, hhash, hlive, hlast, hfresh⟩ := hadded
      obtain rfl : r = r' := by simpa [Except.map] using hout
      have hadded : p'.world.tokens = p.world.tokens ++ [token] := hadded
      have hrows := (hp.reaches hs.reaches).inv.families
      have hmem : token ∈ p'.world.tokens :=
        hadded ▸ List.mem_append_right _ (List.mem_singleton_self token)
      refine ⟨token, hmem, hlive, congrArg some hhash.symm, ⟨0, rfl⟩, fun n x hx hl => ?_⟩
      cases n with
      | zero => exact hrows.row_unique hx hmem hl ▸ hhash ▸ List.mem_singleton_self _
      | succ n =>
          obtain ⟨c, -, q, hq, -, hnext⟩ := hl
          -- nothing leads to a new row but another new row
          rw [hadded] at hq
          cases List.mem_append.mp hq with
          | inl hold =>
              obtain ⟨y, hy, hid⟩ := hp.inv.families.linear.closed q hold token.id hnext
              exact absurd hid (hfresh y hy)
          | inr hself =>
              rw [List.mem_singleton.mp hself] at hnext
              exact absurd (hlast.symm.trans hnext) (Option.some_ne_none _).symm

/-- A call that is refused before its first statement leaves the family alone. -/
theorem Carries.unhashed (hc : Carries p.world.tokens hashes a T)
    (hends : Ends env (call env req) (.start p.world.trace.length p.tables)
      (.error .unicodeEncodeError) (.start p.world.trace.length p.tables))
    (hs : Served (serve env) p req out p') : Carries p'.world.tokens hashes a T := by
  refine hc.served_same hp hs ?_
  have htables : p'.tables = p.tables := (hp.sound.served (serve_ends hends) hs).2
  rw [World.tokens, tokensOf, show p'.world.shared.state = p.tables from htables]
  exact hc.mem

include hd

theorem Carries.refreshed {x : String} (hc : Carries p.world.tokens (family.map env.sha256) a T)
    (h : Spares env family (.refresh x)) (hs : Served (serve env) p (.refresh x) out p') :
    ∃ T', Carries p'.world.tokens
      ((received env family (.refresh x, out)).map env.sha256) a T' := by
  obtain ⟨out', n', versions, rfl, -, hrenewal, hhead⟩ := hp.sound.refreshed hs
  cases out' with
  | error e =>
      refine ⟨T, hc.served_same hp hs ?_⟩
      cases (hrenewal.rejected hp.sound.inv.schema rfl hhead).2 with
      | inl hsame =>
          rw [World.tokens, tokensOf, hsame]
          exact hc.mem
      | inr hrevoked =>
          obtain ⟨T', L, hL⟩ := hrevoked
          obtain ⟨m, -, heffect⟩ := hL.effect
          obtain ⟨n, hlinks⟩ := hL.below
          rw [World.tokens, tokensOf, heffect]
          refine List.mem_map.mpr ⟨T, hc.mem, if_neg fun heq => hL.revoked ?_⟩
          have hknown := hc.known _ T' hL.presented (heq ▸ hlinks)
          have hlast := h.presents hc (hL.hash ▸ hknown)
          rw [hp.inv.row_of_hash hd hL.presented hc.mem (hL.hash.trans hlast.symm)]
          exact hc.live
  | ok r =>
      obtain ⟨T', child, hrenews⟩ := hrenewal.renews hp.sound.inv.schema hhead
      by_cases hx : env.sha256 x ∈ family.map env.sha256
      · obtain rfl := hrenews.only T hc.mem (h.presents hc hx)
        refine ⟨child, ?_⟩
        simp only [received, Except.map, if_pos hx, List.map_cons]
        exact hc.renews hp hs hrenews
      · refine ⟨T, ?_⟩
        simp only [received, Except.map, if_neg hx]
        obtain ⟨now, heffect⟩ := hrenews.effect
        refine hc.served_same hp hs ?_
        rw [World.tokens, tokensOf, heffect]
        refine List.mem_append_left _ (List.mem_map.mpr ⟨T, hc.mem, if_neg fun heq => hx ?_⟩)
        rw [← hrenews.hash, ← heq]
        exact List.mem_of_head? hc.latest

/-- No call but a refresh of its last token changes the family. -/
theorem Carries.served (hc : Carries p.world.tokens (family.map env.sha256) a T)
    (h : Spares env family req) (hs : Served (serve env) p req out p') :
    ∃ T', Carries p'.world.tokens ((received env family (req, out)).map env.sha256) a T' := by
  by_cases hτ : .refreshTokens ∈ req.tables
  · cases req with
    | refresh x =>
        cases x with
        | text x => exact hc.refreshed hp hd h hs
        | surrogate s c x => exact ⟨T, hc.unhashed hp rfl hs⟩
    | logout x =>
        cases x with
        | text x => exact ⟨T, hc.loggedOut hp h hs⟩
        | surrogate s c x => exact ⟨T, hc.unhashed hp rfl hs⟩
    | login email password => exact ⟨T, hc.entered hp hs⟩
    | _ => simp [Request.tables] at hτ
  · have hsame : received env family (req, out) = family := by
      cases req with
      | refresh x => simp [Request.tables] at hτ
      | _ => rfl
    rw [hsame]
    exact ⟨T, hc.served_same hp hs ((hp.served_tokens hτ hs).symm ▸ hc.mem)⟩

theorem Carries.serial {calls : List (Request × Except Error Response)}
    (hc : Carries p.world.tokens (family.map env.sha256) a T) (h : NoCause env family calls)
    (hs : Serial (serve env) p calls p') :
    ∃ T', Carries p'.world.tokens ((calls.foldl (received env) family).map env.sha256) a T' := by
  induction hs generalizing family T with
  | nil p => exact ⟨T, hc⟩
  | cons hs _ ih =>
      obtain ⟨T', hc'⟩ := hc.served hp hd h.1 hs
      exact ih (hp.reaches hs.reaches) hc' h.2

/-- The last token is renewed, unless it has expired or its owner is inactive. -/
theorem Carries.succeeds {x : String} (hc : Carries p.world.tokens hashes a T)
    (hx : T.tokenHash = env.sha256 x) (hactive : p.tables.Active T.userId)
    (htime : env.clock (p.world.trace.length + 1) < T.expiresAt)
    (hs : Served (serve env) p (.refresh x) out p') : ∃ r child, out = .ok (.tokens r) ∧
      Renews env x r p.world.tokens p'.world.tokens T child := by
  obtain ⟨out', n', versions, rfl, -, hrenewal, hhead⟩ := hp.sound.refreshed hs
  have hpresented : ∀ {T'}, p.tables.Presents env x T' → T' = T :=
    fun hT' => (hT'.only T hc.mem hx).symm
  cases hrenewal with
  | ambiguous hT hT' hne hash hash' =>
      exact absurd (hp.inv.row_of_hash hd hT hT' (hash.trans hash'.symm)) hne
  | unknown hnone _ _ => exact absurd hx (hnone T hc.mem)
  | dead hT hrevoked _ _ _ | reused hT hrevoked _ _ _ _
  | familyRevoked hT hrevoked _ _ _ _ _ _ _ _ _ _ =>
      exact absurd hc.live (hpresented hT ▸ hrevoked)
  | expired hT _ hexpired _ _ => exact absurd htime (not_lt.mpr (hpresented hT ▸ hexpired))
  | ownerless hT _ _ howner _ _ => exact absurd hactive (hpresented hT ▸ howner)
  | rotated hT hlive hvalid howner hk hj hm hid hchild ht₁ accessToken id now =>
      have hrotated : Renewal env p.tables x p.world.trace.length n' _ _ :=
        .rotated hT hlive hvalid howner hk hj hm hid hchild ht₁ accessToken id now
      obtain ⟨T', child, hrenews⟩ := hrotated.renews hp.sound.inv.schema hhead
      obtain rfl := hrenews.only T hc.mem hx
      exact ⟨_, child, rfl, hrenews⟩

end Steps

/-- The row was inserted by a call that counted its lifetime from the time `s`. -/
def Calls.IssuedAt (p : Calls env) (T : RefreshToken) (s : Time) : Prop :=
  T.expiresAt = s + env.settings.refreshTokenTtlDays * Time.day ∧
    ∃ e ∈ p.world.trace, ∃ r, e.mark = .issued r ∧ r.id = T.id ∧ ∃ u ∈ p.world.own e.pid,
    u.mark = .read s

theorem Calls.Reachable.issuedAt (hp : p.Reachable) (hT : T ∈ p.world.tokens) :
    ∃ s, p.IssuedAt T s := by
  obtain ⟨e, he, r, hmark, hev⟩ := hp.inv.issued T hT
  obtain ⟨d, u, hin, -, -, hread, hexpires⟩ := hp.inv.drawn e he r hmark
  exact ⟨_, hev.expiresAt.trans hexpires, e, he, r, hmark, hev.id.symm, u,
    hin.subset (List.mem_cons_of_mem _ (List.mem_singleton_self u)), hread⟩

/-- As long as none of its tokens is logged out and none but its last one is presented, the
family of a login goes on, whatever is done with other tokens: its last token is renewed
until it expires. -/
theorem session_continues {t : Tables} (ht : t.Seeded env) (hd : env.Distinct)
    {before after : List (Request × Except Error Response)} {q : Calls env}
    {email password : String} {r₀ : TokenResponse}
    (hbefore : Serial (serve env) (Calls.fresh env t) before p)
    (hlogin : Served (serve env) p (.login email password) (.ok (.tokens r₀)) q)
    (hafter : Serial (serve env) q after p') (hcause : NoCause env [r₀.refreshToken] after) :
    ∃ T₀ ∈ q.world.tokens, T₀.tokenHash = env.sha256 r₀.refreshToken ∧
    ∃ x ∈ (after.foldl (received env) [r₀.refreshToken]).head?,
    ∃ T ∈ p'.world.tokens, ∃ s, T.tokenHash = env.sha256 x ∧ p'.IssuedAt T s ∧
      (p'.tables.Active T.userId →
        env.clock (p'.world.trace.length + 1) < s + env.settings.refreshTokenTtlDays * Time.day →
        ∃ r p'', Served (serve env) p' (.refresh x) (.ok (.tokens r)) p'' ∧
          ∃ child ∈ Lib.World.tokens p''.world, child.tokenHash = env.sha256 r.refreshToken ∧
            child.revokedAt = none ∧ (∀ y ∈ p'.world.tokens, y.id ≠ child.id) ∧
            ∃ n, rotation.Links p''.world.tokens n T₀.id child.id) := by
  have hp : p.Reachable := ⟨t, ht, hbefore.reaches⟩
  have hq := hp.reaches hlogin.reaches
  have hp' := hq.reaches hafter.reaches
  obtain ⟨T₀, hstart⟩ := carries_of_login hp hlogin
  have hstart' : Carries q.world.tokens ([r₀.refreshToken].map env.sha256) T₀.id T₀ := hstart
  obtain ⟨T, hc⟩ := hstart'.serial hq hd hcause hafter
  obtain ⟨x, hx, hhash⟩ := Option.map_eq_some_iff.mp (List.head?_map.symm.trans hc.latest)
  obtain ⟨s, hissued⟩ := hp'.issuedAt hc.mem
  refine ⟨T₀, hstart.mem, (Option.some.inj hstart.latest).symm, x, hx, T, hc.mem, s, hhash.symm,
    hissued, fun hactive htime => ?_⟩
  have hquiet := ((Calls.quiet_fresh t).of_serial hbefore |>.of_served hlogin).of_serial hafter
  obtain ⟨out, p'', hserved⟩ := hquiet.served (.refresh x)
  obtain ⟨r, child, rfl, hrenews⟩ := hc.succeeds hp' hd hhash.symm hactive (hissued.1 ▸ htime)
    hserved
  have hnext := hc.renews hp' hserved hrenews
  exact ⟨r, p'', hserved, child, hnext.mem, hrenews.given, hnext.live, hrenews.fresh, hnext.root⟩

/-- The response of a user's login or refresh in the plain environment. -/
def plainTokens (n : Nat) : Except Error Response :=
  .ok (.tokens ⟨"2", plainEnvironment.token n, "bearer", 900⟩)

/-- The replay of the token of one login, amid the refreshes of both. -/
def replayCalls : List (Request × Except Error Response) :=
  [(.refresh (plainEnvironment.token 18), plainTokens 43),
    (.refresh (plainEnvironment.token 18), .error AuthService.invalidRefreshToken),
    (.refresh (plainEnvironment.token 34), plainTokens 74), (.logout "x", .ok .done)]

/-- Two logins of one user, and the replay. -/
def replayRun : List (Request × Except Error Response) :=
  [(.register "a" "p", .ok (.registered ⟨⟨2⟩, "a", Time.second⟩)),
    (.login "a" "p", plainTokens 18)] ++
    (.login "a" "p", plainTokens 34) :: replayCalls

/-- The owners of all tokens are active, and the tokens have not expired. -/
def allFit (p : Calls plainEnvironment) : Bool :=
  decide (∀ T ∈ p.world.tokens, p.tables.Active T.userId ∧
    plainEnvironment.clock (p.world.trace.length + 1) < T.expiresAt)

/-- The family of the first login is revoked, that of the second goes on. -/
theorem session_continues_replay : ∃ p' : Calls plainEnvironment,
    Serial (serve plainEnvironment) (Calls.fresh plainEnvironment {}) replayRun p' ∧
    ∃ r p'', Served (serve plainEnvironment) p' (.refresh (plainEnvironment.token 74))
      (.ok (.tokens r)) p'' := by
  have hserial : ∃ p', Serial (serve plainEnvironment) (Calls.fresh plainEnvironment {})
    replayRun p' ∧
      allFit p' = true :=
    Serial.of_serveAll_pool (by decide +kernel)
  obtain ⟨p', hserial, hfit⟩ := hserial
  obtain ⟨p, hbefore, hrest⟩ := hserial.split
  cases hrest with
  | cons hlogin hafter =>
      obtain ⟨T₀, -, -, x, hx, T, hT, s, -, hissued, hrenews⟩ :=
        session_continues (Tables.seeded_empty _)
          plainEnvironment_distinct hbefore hlogin hafter (by decide +kernel)
      obtain ⟨hactive, htime⟩ := of_decide_eq_true hfit T hT
      obtain ⟨r, p'', hserved, -⟩ := hrenews hactive (hissued.1 ▸ htime)
      have hlast : x = plainEnvironment.token 74 :=
        Option.some.inj (hx.symm.trans (by decide +kernel))
      exact ⟨p', hserial, r, p'', hlast ▸ hserved⟩

end SecureIam
