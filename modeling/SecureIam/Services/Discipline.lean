import SecureIam.Db.Results
import SecureIam.Lib.Discipline
import SecureIam.Services.Requests

/-!
The discipline of the sessions: one row is looked up outside of transactions only, and a
transaction waits for nobody once it has written. Every call follows it.
-/
namespace SecureIam
open Lib App Program
variable {env : Environment} {α β : Type}

theorem length_le_one {xs : List α} (hn : xs.Nodup) (h : ∀ x ∈ xs, ∀ y ∈ xs, x = y) :
    xs.length ≤ 1 := by
  match xs with
  | [] | [_] => simp
  | x :: y :: _ =>
      have heq := h x List.mem_cons_self y (List.mem_cons_of_mem _ List.mem_cons_self)
      simp [heq] at hn

/-- No two users, assignments, memberships or tokens answer to one lookup. -/
structure Tables.Single (t : Tables) : Prop where
  schema : t.Schema
  hash : ∀ T ∈ t.refreshTokens, ∀ T' ∈ t.refreshTokens, T.tokenHash = T'.tokenHash → T = T'

namespace Tables.Single
variable {t : Tables} (h : t.Single)
include h

theorem filter_key {τ : Table} {k : LockKey} {q : τ.Row → Bool}
    (hq : ∀ r, q r = true → k ∈ τ.keys r) :
    ((t.rows τ).filter q).length ≤ 1 := by
  cases h.schema.filter_key hq with
  | inl hnone => simp [hnone]
  | inr hone =>
      obtain ⟨r, -, -, hone⟩ := hone
      simp [hone]

theorem filter_hash (hash : String) :
    (t.refreshTokens.filter (·.tokenHash = hash)).length ≤ 1 := by
  refine length_le_one ((h.schema.nodup .refreshTokens).filter _) fun T hT T' hT' => ?_
  obtain ⟨hT, hhash⟩ := List.mem_filter.mp hT
  obtain ⟨hT', hhash'⟩ := List.mem_filter.mp hT'
  exact h.hash T hT T' hT' ((of_decide_eq_true hhash).trans (of_decide_eq_true hhash').symm)

end Tables.Single

/-- A query that finds one row at most. -/
def Lookup {τ : Table} (q : Tables → List τ.Row) : Prop := ∀ t : Tables, t.Single → (q t).length ≤ 1

namespace Stmt

/-- The keys that the session holds for sure once the statement has changed something;
`none` if it has not. -/
def locked : (o : Stmt) → o.Res → Option (List LockKey)
  | insert τ _, r => r.map τ.keys
  | updateLastLoginAt id _, count | updateIsActive id _, count =>
      if count = 0 then none else some [.primary .users id]
  | revokeIfActive id _, count | updateRevokedAt id _, count =>
      if count = 0 then none else some [.primary .refreshTokens id]
  | updateReplacedBy id _, count =>
      if count.getD 0 = 0 then none else some [.primary .refreshTokens id]
  | deleteRolePermission _ _, count | deleteUserRole _, count | deleteMembership _, count =>
      if count = 0 then none else some []
  | _, _ => none

/-- The statements that never wait for another session which does not hold `held`. -/
def Prompt (held : List LockKey) : Stmt → Prop
  | insert .refreshTokens _ => True
  | updateReplacedBy id _ => .primary .refreshTokens id ∈ held
  | insert _ _ | updateLastLoginAt _ _ | updateIsActive _ _ | revokeIfActive _ _
  | updateRevokedAt _ _ | deleteRolePermission _ _ | deleteUserRole _ | deleteMembership _ => False
  | _ => True

end Stmt

/-- `none` until the transaction has written, then some of the keys that it holds. -/
@[reducible] def sessions : Discipline sql where
  State := Option (List LockKey)
  idle := none
  may
    | none, _ => True
    | some held, o => o.Prompt held
  sees
    | none, .select _ q, rows => Lookup q → rows.length ≤ 1
    | _, _, _ => True
  next
    | _, .commit, _ | _, .rollback, _ => none
    | σ, o, r =>
        match o.locked r with
        | none => σ
        | some keys => some (σ.getD [] ++ keys)

section Statements
variable {n i : Nat} {g g' : Database} {l l' : Session} {o : Stmt} {r : o.Res}

/-- What the answer of a statement tells of the transaction. -/
def Reported (i : Nat) (g g' : Database) (ws vs : List Write) : Option (List LockKey) → Prop
  | none => g' = g ∧ vs = ws
  | some keys => ∀ k ∈ keys, g'.locks k = some i

private theorem reported_row {keys : List LockKey} {found : Option Write} {l₁ : Session} {c : Nat}
    (h : writeRow i found g l₁ = some (c, g', l')) (hl : l₁.pending = l.pending)
    (hkeys : ∀ w, found = some w → keys ⊆ w.keys) :
    Reported i g g' l.pending l'.pending (if c = 0 then none else some keys) := by
  cases writeRow_eq_some.mp h with
  | inl h =>
      obtain ⟨-, rfl, rfl, rfl⟩ := h
      exact ⟨rfl, hl⟩
  | inr h =>
      obtain ⟨w, hw, rfl, hg, -⟩ := h
      intro k hk
      obtain ⟨-, rfl⟩ := Store.write_eq_some.mp hg
      exact if_pos (hkeys w hw hk)

private theorem keys_updateWhere {τ : Table} {p : τ.Row → Bool} {w : Write} {t : Tables} :
    ∀ w', updateWhere τ p w t = some w' → w.keys ⊆ w'.keys := by
  intro w' hw
  obtain ⟨-, rfl⟩ := updateWhere_eq_some.mp hw
  exact List.Subset.refl _

theorem exec_reported (h : exec env n i o g l = some (r, g', l')) (ho : o.ends = false) :
    Reported i g g' l.pending l'.pending (o.locked r) := by
  cases o with
  | commit | rollback => cases ho
  | utcNow | uuid4 | tokenUrlsafe | hashPassword _ | select _ _ | selectMembers _ _
  | selectAuditLogs _ _ | countAuditLogs _ =>
      simp only [exec, Option.some.injEq, Prod.mk.injEq] at h
      obtain ⟨-, rfl, rfl⟩ := h
      exact ⟨rfl, by simp⟩
  | refresh τ id =>
      simp only [exec] at h
      split at h
      all_goals
        simp only [Option.some.injEq, Prod.mk.injEq] at h
        obtain ⟨-, rfl, rfl⟩ := h
        exact ⟨rfl, by simp⟩
  | insert τ draft =>
      simp only [exec, Option.map_eq_some_iff] at h
      obtain ⟨g₁, hw, h⟩ := h
      split at h
      all_goals
        simp only [Prod.mk.injEq] at h
        obtain ⟨rfl, rfl, rfl⟩ := h
      · intro k hk
        obtain ⟨-, rfl⟩ := Store.write_eq_some.mp hw
        exact if_pos hk
      · exact ⟨rfl, by simp⟩
  | updateReplacedBy id child =>
      simp only [exec] at h
      split at h
      · simp only [Option.map_eq_some_iff, Prod.mk.injEq] at h
        obtain ⟨⟨c, g₁, l₁⟩, h, rfl, rfl, rfl⟩ := h
        exact reported_row h rfl keys_updateWhere
      · simp only [Option.some.injEq, Prod.mk.injEq] at h
        obtain ⟨rfl, rfl, rfl⟩ := h
        exact ⟨rfl, rfl⟩
  | updateLastLoginAt id t | updateIsActive id active | revokeIfActive id t
  | updateRevokedAt id t =>
      simp only [exec] at h
      exact reported_row h rfl keys_updateWhere
  | deleteRolePermission _ _ | deleteUserRole _ | deleteMembership _ =>
      simp only [exec] at h
      exact reported_row h rfl fun _ _ => List.nil_subset _

private theorem writeRow_isSome {f : Option Write}
    (h : ∀ w, f = some w → ∀ k ∈ w.keys, g.Free i k) (l₁ : Session) :
    ∃ x, writeRow i f g l₁ = some x := by
  cases f with
  | none => exact ⟨_, rfl⟩
  | some w => exact ⟨_, by rw [writeRow, Store.write_eq_some.mpr ⟨h w rfl, rfl⟩]; rfl⟩

/-- A statement waits only for a session that holds a key of what it writes. -/
theorem exec_isSome (h : ∀ w, o.Writes w → (∀ τ id, .primary τ id ∈ w.adds → id = env.uuid n) →
    ∀ k ∈ w.keys, g.Free i k) : ∃ x, exec env n i o g l = some x := by
  cases o with
  | refresh τ id =>
      simp only [exec]
      split
      all_goals exact ⟨_, rfl⟩
  | insert τ draft =>
      have hfree := h _ ⟨_, _, rfl⟩ fun τ' id hid => by
        obtain rfl : τ' = τ := Table.mem_keys_table hid
        exact draft.drawn (env.uuid n) (l.now env n) id hid
      have hw : g.write i (.insert τ (draft.row (env.uuid n) (l.now env n))) = some _ :=
        Store.write_eq_some.mpr ⟨hfree, rfl⟩
      simp only [exec, hw]
      exact ⟨_, rfl⟩
  | updateReplacedBy id child =>
      simp only [exec]
      split
      · have hrow := writeRow_isSome (g := g) (i := i)
          (f := updateWhere .refreshTokens (·.id = id) (.setReplacedBy id child) (l.view g))
          fun w hw => by
            obtain ⟨-, rfl⟩ := updateWhere_eq_some.mp hw
            exact h _ rfl fun _ _ hid => by cases hid
        obtain ⟨x, hx⟩ := hrow ((l.touch n).amendToken id fun r =>
          { r with replacedBy := some child })
        exact ⟨_, by rw [hx]; rfl⟩
      · exact ⟨_, rfl⟩
  | updateLastLoginAt id t | updateIsActive id active | revokeIfActive id t
  | updateRevokedAt id t =>
      refine writeRow_isSome (fun w hw => ?_) _
      obtain ⟨-, rfl⟩ := updateWhere_eq_some.mp hw
      exact h _ rfl fun _ _ hid => by cases hid
  | deleteRolePermission _ _ | deleteUserRole _ | deleteMembership _ =>
      refine writeRow_isSome (fun w hw => ?_) _
      obtain ⟨r, -, rfl⟩ := Option.map_eq_some_iff.mp hw
      exact h _ ⟨r, rfl⟩ fun _ _ hid => by cases hid
  | _ => exact ⟨_, rfl⟩

end Statements

/-- No lookup has found several rows, and no transaction is left open, unless by an error
of the database. -/
def Rests (out : Except Error α) (σ : Option (List LockKey)) : Prop :=
  match out with
  | .ok _ => σ = none
  | .error e => e ≠ .multipleResultsFound ∧ (σ = none ∨ e = .integrityError ∨ e = .staleDataError)

theorem Rests.closed {e : Error} {σ : Option (List LockKey)} (h : Rests (α := α) (.error e) σ)
    (hintegrity : e ≠ .integrityError) (hstale : e ≠ .staleDataError) : σ = none :=
  h.2.resolve_right fun he => he.elim hintegrity hstale

abbrev Orderly (p : App α) : Prop := sessions.Follows Rests p none

theorem orderly_bind {p : App α} {f : α → App β} (hp : Orderly p) (hf : ∀ a, Orderly (f a)) :
    Orderly (p.bind f) := by
  refine Discipline.follows_bind (hp.mono fun out σ h => ?_)
  cases out with
  | error e => exact h
  | ok a =>
      obtain rfl : σ = none := h
      exact hf a

theorem orderly_raise {e : Error} (he : e ≠ .multipleResultsFound) : Orderly (.raise e : App α) :=
  ⟨he, .inl rfl⟩

theorem orderly_handle {p : App α} {g : Error → App α} (hp : Orderly p)
    (hg : ∀ e σ, Rests (α := α) (.error e) σ → sessions.Follows Rests (g e) σ) :
    Orderly (p.handle g) := by
  refine Discipline.follows_handle (hp.mono fun out σ h => ?_)
  cases out with
  | error e => exact hg e σ h
  | ok a => exact h

/-- Statements that write nothing. -/
theorem orderly_issue {o : Stmt} (ho : ∀ r, sessions.next none o r = none) :
    Orderly (App.issue o) :=
  ⟨trivial, fun r _ => ho r⟩

theorem follows_commit {σ : Option (List LockKey)} {f : Unit → App α} (hf : Orderly (f ())) :
    sessions.Follows Rests (commit.bind f) σ := by
  refine ⟨?_, fun _ _ => hf⟩
  cases σ <;> trivial

theorem follows_rollback {σ : Option (List LockKey)} {f : Unit → App α} (hf : Orderly (f ())) :
    sessions.Follows Rests (rollback.bind f) σ := by
  refine ⟨?_, fun _ _ => hf⟩
  cases σ <;> trivial

theorem orderly_selectOne {τ : Table} {q : Tables → List τ.Row} (hq : Lookup q) :
    Orderly (do scalarOneOrNone (← select τ q)) := by
  refine ⟨trivial, fun rows hrows => ?_⟩
  match rows, hrows hq with
  | [], _ | [_], _ => rfl

theorem orderly_selectThen {τ : Table} {q : Tables → List τ.Row} {f : Option τ.Row → App α}
    (hq : Lookup q) (hf : ∀ found, Orderly (f found)) :
    Orderly (do
      let found ← scalarOneOrNone (← select τ q)
      f found) := by
  have hbind := orderly_bind (orderly_selectOne hq) hf
  rwa [Program.bind_def, Program.bind_assoc] at hbind

theorem orderly_refresh (τ : Table) (id : Uuid) : Orderly (App.refresh τ id) := by
  refine orderly_bind (orderly_issue fun _ => rfl) fun row => ?_
  cases row with
  | none => exact orderly_raise (nofun)
  | some row => rfl

/-- An INSERT, as the one write of its transaction. -/
theorem orderly_insert {τ : Table} {draft : τ.Draft} {f : τ.Row → App α}
    (hf : ∀ row, Orderly (f row)) :
    Orderly (do
      let row ← App.insert τ draft
      commit
      f row) := by
  refine ⟨trivial, fun row _ => ?_⟩
  cases row with
  | none => exact orderly_raise (nofun)
  | some row => exact follows_commit (hf row)

theorem orderly_exceptIntegrityError {p : App α} {e : Error} (hp : Orderly p)
    (he : e ≠ .multipleResultsFound) : Orderly (exceptIntegrityError p e) := by
  refine orderly_handle hp fun e' σ he' => ?_
  cases e' with
  | integrityError => exact follows_rollback (orderly_raise he)
  | _ => exact he'

/-- `session.add(row); await session.commit()` in a `try`, and the reload. -/
theorem orderly_insertOne {τ : Table} {draft : τ.Draft} {e : Error} {id : τ.Row → Uuid}
    (he : e ≠ .multipleResultsFound) :
    Orderly (do
      let row ← exceptIntegrityError
        (do
          let row ← App.insert τ draft
          commit
          return row) e
      App.refresh τ (id row)) :=
  orderly_bind (orderly_exceptIntegrityError (orderly_insert fun _ => rfl) he) fun _ =>
  orderly_refresh _ _

theorem orderly_record (r : AuditRecord) : Orderly (AuditLogRepository.record r) :=
  orderly_insert fun _ => orderly_refresh _ _

/-- Record an event, then go on or raise. -/
theorem orderly_record_then {r : AuditRecord} {p : App α} (hp : Orderly p) :
    Orderly (do
      let _ ← AuditLogRepository.record r
      p) :=
  orderly_bind (orderly_record r) fun _ => hp

/-- `if c: raise e`, and what follows. -/
theorem orderly_unless {c : Prop} [Decidable c] {e : Error} {p : App α}
    (he : e ≠ .multipleResultsFound) (hp : Orderly p) :
    Orderly (if c then (Program.raise e : App Unit).bind fun _ => p else p) := by
  split
  · exact orderly_raise he
  · exact hp

section Lookups

theorem lookup_user (id : Uuid) : Lookup (τ := .users) fun t => t.users.filter (·.id = id) :=
  fun _ ht => ht.filter_key (τ := .users) (k := .primary .users id)
    (by simp +contextual [Table.keys])

theorem lookup_email (email : String) : Lookup (τ := .users) fun t =>
    t.users.filter (·.email = email) :=
  fun _ ht => ht.filter_key (τ := .users) (k := .email email) (by simp +contextual [Table.keys])

theorem lookup_hash (hash : String) :
    Lookup (τ := .refreshTokens) fun t => t.refreshTokens.filter (·.tokenHash = hash) :=
  fun _ ht => ht.filter_hash hash

theorem lookup_token (id : Uuid) :
    Lookup (τ := .refreshTokens) fun t => t.refreshTokens.filter (·.id = id) :=
  fun _ ht => ht.filter_key (τ := .refreshTokens) (k := .primary .refreshTokens id)
    (by simp +contextual [Table.keys])

theorem lookup_role (id : Uuid) : Lookup (τ := .roles) fun t => t.roles.filter (·.id = id) :=
  fun _ ht => ht.filter_key (τ := .roles) (k := .primary .roles id)
    (by simp +contextual [Table.keys])

theorem lookup_permission (id : Uuid) :
    Lookup (τ := .permissions) fun t => t.permissions.filter (·.id = id) :=
  fun _ ht => ht.filter_key (τ := .permissions) (k := .primary .permissions id)
    (by simp +contextual [Table.keys])

theorem lookup_organization (id : Uuid) :
    Lookup (τ := .organizations) fun t => t.organizations.filter (·.id = id) :=
  fun _ ht => ht.filter_key (τ := .organizations) (k := .primary .organizations id)
    (by simp +contextual [Table.keys])

theorem lookup_assignment (u r : Uuid) (o : Option Uuid) :
    Lookup (τ := .userRoles) fun t => t.userRoles.filter fun ur =>
      ur.userId = u ∧ ur.roleId = r ∧ ur.organizationId = o :=
  fun _ ht => ht.filter_key (τ := .userRoles) (k := .assignment u r o)
  (by simp +contextual [Table.keys])

theorem lookup_membership (u o : Uuid) :
    Lookup (τ := .memberships) (OrganizationMembershipRepository.membershipsOf u o) :=
  fun _ ht => ht.filter_key (τ := .memberships) (k := .membershipOf u o)
  (by simp +contextual [Table.keys])

end Lookups

section Access
open AuthorizationService OrganizationService

theorem requireOrganization_orderly (o : Option Uuid) : Orderly (requireOrganization o) := by
  cases o with
  | none => rfl
  | some o =>
      refine orderly_bind (orderly_selectOne (lookup_organization o)) fun r => ?_
      split
      · exact orderly_raise (nofun)
      · rfl

theorem requireMember_orderly (u : Uuid) (o : Option Uuid) : Orderly (requireMember u o) := by
  cases o with
  | none => rfl
  | some o =>
      refine orderly_bind (requireOrganization_orderly _) fun _ => ?_
      refine orderly_bind (orderly_selectThen (lookup_membership u o) fun _ => rfl) fun b => ?_
      split
      · exact orderly_raise (nofun)
      · rfl

theorem authorize_orderly (u : Uuid) (r a : String) (o : Option Uuid) :
    Orderly (authorize env u r a o) := by
  refine orderly_bind (orderly_selectOne (lookup_user u)) fun user => ?_
  split
  · rfl
  · exact orderly_bind (orderly_issue fun _ => rfl) fun _ => rfl

theorem createRole_orderly (n : String) (d : Option String) (o : Option Uuid) (actor : Uuid) :
    Orderly (createRole n d o actor) := by
  refine orderly_bind (requireOrganization_orderly o) fun _ => ?_
  refine orderly_bind (orderly_handle (orderly_insertOne (nofun)) fun e σ he => ?_) fun role => ?_
  · split
    · obtain rfl := he.closed (nofun) (nofun)
      exact orderly_raise (nofun)
    · exact he
  · exact orderly_record_then rfl

theorem assignRole_orderly (u r : Uuid) (o : Option Uuid) (actor : Uuid) :
    Orderly (assignRole u r o actor) := by
  refine orderly_bind (orderly_selectOne (lookup_role r)) fun role => ?_
  split
  · exact orderly_raise (nofun)
  · refine orderly_unless (nofun) ?_
    refine orderly_bind (requireMember_orderly u o) fun _ => ?_
    refine orderly_bind (orderly_handle (orderly_insertOne (nofun)) fun e σ he => ?_) fun _ => ?_
    · split
      · obtain rfl := he.closed (nofun) (nofun)
        exact orderly_raise (nofun)
      · exact he
    · exact orderly_record_then rfl

/-- A DELETE, as the one write of its transaction. -/
theorem orderly_write {o : Stmt} {f : o.Res → App α} (hf : ∀ r, Orderly (f r)) :
    Orderly ((App.issue o).bind fun r => commit.bind fun _ => f r) :=
  ⟨trivial, fun r _ => follows_commit (hf r)⟩

theorem revokeRole_orderly (u r : Uuid) (o : Option Uuid) (actor : Uuid) :
    Orderly (revokeRole u r o actor) := by
  refine orderly_bind ?_ fun revoked => ?_
  · refine orderly_selectThen (lookup_assignment u r o) fun found => ?_
    split
    · rfl
    · exact orderly_write fun _ => rfl
  · split
    · exact orderly_record_then rfl
    · rfl

theorem assignPermissionToRole_orderly (r p actor : Uuid) :
    Orderly (assignPermissionToRole r p actor) := by
  refine orderly_bind (orderly_selectOne (lookup_role r)) fun role => ?_
  split
  · exact orderly_raise (nofun)
  · refine orderly_bind (orderly_selectOne (lookup_permission p)) fun permission =>
      orderly_unless (nofun) ?_
    have hadd : Orderly (RoleRepository.addPermission r p) := by
      refine orderly_exceptIntegrityError ⟨trivial, fun row _ => ?_⟩ (nofun)
      cases row with
      | none => exact orderly_raise (nofun)
      | some row => exact follows_commit (f := .ret) rfl
    refine orderly_bind (orderly_handle hadd fun e σ he => ?_) fun _ => ?_
    · split
      · obtain rfl := he.closed (nofun) (nofun)
        exact orderly_raise (nofun)
      · exact he
    · exact orderly_record_then rfl

theorem removePermissionFromRole_orderly (r p actor : Uuid) :
    Orderly (removePermissionFromRole r p actor) := by
  refine orderly_bind (orderly_selectOne (lookup_role r)) fun role => ?_
  split
  · exact orderly_raise (nofun)
  · refine orderly_bind (orderly_write fun _ => rfl) fun removed => ?_
    split
    · exact orderly_record_then rfl
    · rfl

theorem getUserPermissions_orderly (u : Uuid) (o : Option Uuid) :
    Orderly (getUserPermissions env u o) :=
  orderly_bind (orderly_issue fun _ => rfl) fun _ => rfl

theorem createOrganization_orderly (n : String) (actor : Uuid) :
    Orderly (createOrganization n actor) := by
  refine orderly_bind (orderly_handle (orderly_insertOne (nofun)) fun e σ he => ?_)
    fun organization => ?_
  · split
    · obtain rfl := he.closed (nofun) (nofun)
      exact orderly_raise (nofun)
    · exact he
  · exact orderly_record_then rfl

theorem addMember_orderly (u o actor : Uuid) : Orderly (addMember u o actor) := by
  refine orderly_bind (orderly_selectOne (lookup_user u)) fun user => orderly_unless (nofun) ?_
  refine orderly_bind (requireOrganization_orderly _) fun _ => ?_
  refine orderly_bind (orderly_handle (orderly_insertOne (nofun)) fun e σ he => ?_) fun _ => ?_
  · split
    · obtain rfl := he.closed (nofun) (nofun)
      exact orderly_raise (nofun)
    · exact he
  · exact orderly_record_then rfl

theorem removeMember_orderly (u o actor : Uuid) : Orderly (removeMember u o actor) := by
  refine orderly_bind (orderly_selectThen (lookup_membership u o) fun found => ?_) fun removed => ?_
  · split
    · rfl
    · exact orderly_write fun _ => rfl
  · split
    · exact orderly_record_then rfl
    · rfl

theorem listMembers_orderly (o : Uuid) : Orderly (listMembers o) :=
  orderly_bind (requireOrganization_orderly _) fun _ => orderly_bind (orderly_issue fun _ => rfl)
    fun _ => rfl

theorem listOrganizationsForUser_orderly (u : Uuid) : Orderly (listOrganizationsForUser env u) :=
  orderly_bind (orderly_issue fun _ => rfl) fun _ => rfl

theorem listEvents_orderly (f : AuditLogRepository.EventFilter) (limit offset : Nat) :
    Orderly (AuditLogService.listEvents f limit offset) :=
  orderly_bind (orderly_issue fun _ => rfl) fun _ => orderly_bind (orderly_issue fun _ => rfl)
  fun _ => rfl

theorem setIsActive_orderly (u : Uuid) (active : Bool) : Orderly (setIsActive u active) :=
  ⟨trivial, fun _ _ => follows_commit (f := .ret) rfl⟩

end Access

section Tokens
open AuthService RefreshTokenRepository

theorem createAccessToken_orderly (userId : String) : Orderly (createAccessToken env userId) :=
  orderly_bind (orderly_issue fun _ => rfl) fun _ => orderly_bind (orderly_issue fun _ => rfl)
    fun _ => rfl

theorem refreshTokenExpiry_orderly : Orderly (refreshTokenExpiry env) :=
  orderly_bind (orderly_issue fun _ => rfl) fun _ => rfl

theorem hashRefreshToken_orderly (x : PyStr) :
    Orderly (.ofExcept (hashRefreshToken env x) : App String) := by
  cases x with
  | text s => rfl
  | surrogate _ _ _ => exact orderly_raise (nofun)

theorem createUser_orderly (email hash : String) :
    Orderly (UserRepository.createUser env email hash) := by
  cases hfits : UserRepository.emailFits (env.lower email) with
  | false =>
      rw [UserRepository.createUser_of_not_fits hfits]
      exact orderly_raise (nofun)
  | true =>
      rw [UserRepository.createUser_of_fits hfits]
      exact orderly_insertOne (nofun)

theorem getByEmail_orderly (email : String) : Orderly (UserRepository.getByEmail env email) := by
  cases hstorable : App.storable (env.lower email) with
  | false =>
      rw [UserRepository.getByEmail_of_not_storable hstorable]
      exact orderly_raise (nofun)
  | true =>
      rw [UserRepository.getByEmail_of_storable hstorable]
      exact orderly_selectOne (lookup_email (env.lower email))

theorem register_orderly (email password : String) : Orderly (register env email password) := by
  refine orderly_bind (orderly_issue fun _ => rfl) fun hash => ?_
  refine orderly_bind (orderly_handle (createUser_orderly email hash) fun e σ he => ?_)
    fun user => ?_
  · split
    · obtain rfl := he.closed (nofun) (nofun)
      exact orderly_record_then (orderly_raise (nofun))
    · exact he
  · exact orderly_record_then rfl

/-- The flush of one changed row, and the commit. -/
theorem orderly_flush {o : Stmt} {count : o.Res → Nat} {f : App α} (hf : Orderly f) :
    Orderly ((App.issue o).bind fun r => (App.flushOne (count r)).bind fun _ => commit.bind
      fun _ => f) := by
  refine ⟨trivial, fun r _ => ?_⟩
  change sessions.Follows Rests ((App.flushOne (count r)).bind _) _
  rw [App.flushOne]
  split
  · exact follows_commit hf
  · exact ⟨nofun, .inr (.inr rfl)⟩

theorem login_orderly (email password : String) : Orderly (login env email password) := by
  refine orderly_bind (getByEmail_orderly email) fun user => ?_
  split
  · exact orderly_record_then (orderly_raise (nofun))
  · split
    · exact orderly_record_then (orderly_raise (nofun))
    · split
      · exact orderly_record_then (orderly_raise (nofun))
      · refine orderly_bind ?_ fun _ => orderly_record_then ?_
        · exact orderly_bind (orderly_issue fun _ => rfl) fun now =>
            orderly_flush (orderly_refresh _ _)
        · refine orderly_bind (createAccessToken_orderly _) fun _ => ?_
          refine orderly_bind (orderly_issue fun _ => rfl) fun token => ?_
          refine orderly_bind (hashRefreshToken_orderly (.text token)) fun _ => ?_
          refine orderly_bind refreshTokenExpiry_orderly fun _ => ?_
          exact orderly_bind (orderly_insert fun _ => orderly_refresh _ _) fun _ => rfl

theorem logout_orderly (x : PyStr) : Orderly (logout env x) := by
  refine orderly_bind (hashRefreshToken_orderly x) fun hash => ?_
  refine orderly_bind (orderly_selectOne (lookup_hash _)) fun token => ?_
  split
  · rfl
  · split
    · rfl
    · refine orderly_bind ?_ fun _ => orderly_record_then rfl
      exact orderly_bind (orderly_issue fun _ => rfl) fun now => orderly_flush (orderly_refresh _ _)

theorem orderly_revokeIfActive {id : Uuid} {f : Nat → App α} (hzero : Orderly (f 0))
    (hone : ∀ c, c ≠ 0 → sessions.Follows Rests (f c) (some [.primary .refreshTokens id])) :
    Orderly ((revokeIfActive id).bind f) := by
  refine ⟨trivial, fun now _ => ⟨trivial, fun c _ => ?_⟩⟩
  by_cases hc : c = 0
  · subst hc
    exact hzero
  · simp only [Stmt.locked, if_neg hc]
    exact hone c hc

/-- The rotation holds the old token from its first write on, and the new one is its own. -/
theorem createRotationPair_orderly (T : RefreshToken) (hash : String) (expiresAt : Time) :
    Orderly (createRotationPair T hash expiresAt) := by
  refine orderly_revokeIfActive rfl fun c hc => ?_
  rw [if_neg hc]
  refine ⟨trivial, fun row _ => ?_⟩
  cases row with
  | none => exact ⟨nofun, .inr (.inl rfl)⟩
  | some row =>
      refine ⟨List.mem_cons_self, fun linked _ => ?_⟩
      cases linked with
      | none => exact ⟨nofun, .inr (.inl rfl)⟩
      | some count =>
          refine follows_commit ?_
          exact orderly_bind (orderly_refresh _ _) fun _ => orderly_bind (orderly_refresh _ _)
            fun _ => rfl

theorem walk_orderly (steps : Nat) (next : Uuid) : Orderly (walk steps next) := by
  induction steps generalizing next with
  | zero => rfl
  | succ steps ih =>
      refine orderly_bind (orderly_selectOne (lookup_token next)) fun candidate => ?_
      split
      · rfl
      · split
        · exact ih _
        · refine orderly_revokeIfActive ?_ fun c hc => ?_
          · refine orderly_bind (orderly_selectOne (lookup_token _)) fun refreshed => ?_
            split
            · rfl
            · split
              · rfl
              · exact ih _
          · rw [if_neg hc]
            exact follows_commit (orderly_bind (orderly_refresh _ _) fun _ => rfl)

theorem handleRevokedToken_orderly (T : RefreshToken) : Orderly (handleRevokedToken T) := by
  rw [handleRevokedToken]
  split
  · exact orderly_record_then rfl
  · refine orderly_bind ?_ fun leaf => orderly_record_then ?_
    · rw [revokeDescendants]
      split
      · rfl
      · exact walk_orderly _ _
    · split
      · exact orderly_record_then rfl
      · rfl

theorem rotate_orderly (T : RefreshToken) : Orderly (rotate env T) := by
  refine orderly_bind (orderly_issue fun _ => rfl) fun now => ?_
  split
  · exact orderly_record_then (orderly_raise (nofun))
  · refine orderly_bind (orderly_selectOne (lookup_user T.userId)) fun user => ?_
    split
    · exact orderly_record_then (orderly_raise (nofun))
    · refine orderly_bind (orderly_issue fun _ => rfl) fun token => ?_
      refine orderly_bind (hashRefreshToken_orderly (.text token)) fun _ => ?_
      refine orderly_bind refreshTokenExpiry_orderly fun _ => ?_
      refine orderly_bind (createRotationPair_orderly _ _ _) fun pair => ?_
      split
      · exact orderly_record_then (orderly_raise (nofun))
      · exact orderly_record_then (orderly_bind (createAccessToken_orderly _) fun _ => rfl)

theorem refresh_orderly (x : PyStr) : Orderly (refresh env x) := by
  refine orderly_bind (hashRefreshToken_orderly x) fun hash => ?_
  refine orderly_bind (orderly_selectOne (lookup_hash _)) fun token => ?_
  split
  · exact orderly_record_then (orderly_raise (nofun))
  · split
    · exact orderly_bind (handleRevokedToken_orderly _) fun _ => orderly_raise (nofun)
    · exact rotate_orderly _

end Tokens

theorem call_orderly (req : Request) : Orderly (call env req) := by
  cases req with
  | register e p => exact orderly_bind (register_orderly e p) fun _ => rfl
  | login e p => exact orderly_bind (login_orderly e p) fun _ => rfl
  | refresh x => exact orderly_bind (refresh_orderly x) fun _ => rfl
  | logout x => exact orderly_bind (logout_orderly x) fun _ => rfl
  | authorize u r a o => exact orderly_bind (authorize_orderly u r a o) fun _ => rfl
  | createRole n d o actor => exact orderly_bind (createRole_orderly n d o actor) fun _ => rfl
  | assignRole u r o actor => exact orderly_bind (assignRole_orderly u r o actor) fun _ => rfl
  | revokeRole u r o actor => exact orderly_bind (revokeRole_orderly u r o actor) fun _ => rfl
  | assignPermissionToRole r p actor =>
      exact orderly_bind (assignPermissionToRole_orderly r p actor) fun _ => rfl
  | removePermissionFromRole r p actor =>
      exact orderly_bind (removePermissionFromRole_orderly r p actor) fun _ => rfl
  | getUserPermissions u o => exact orderly_bind (getUserPermissions_orderly u o) fun _ => rfl
  | createOrganization n actor =>
      exact orderly_bind (createOrganization_orderly n actor) fun _ => rfl
  | addMember u o actor => exact orderly_bind (addMember_orderly u o actor) fun _ => rfl
  | removeMember u o actor => exact orderly_bind (removeMember_orderly u o actor) fun _ => rfl
  | listMembers o => exact orderly_bind (listMembers_orderly o) fun _ => rfl
  | listOrganizationsForUser u =>
      exact orderly_bind (listOrganizationsForUser_orderly u) fun _ => rfl
  | listEvents f limit offset => exact orderly_bind (listEvents_orderly f limit offset) fun _ => rfl
  | setIsActive u active => exact orderly_bind (setIsActive_orderly u active) fun _ => rfl

/-- Once a call has ended, it holds nothing and has not raised about several rows. -/
def Closed (out : Except Error α) (σ : Option (List LockKey)) : Prop :=
  σ = none ∧ out ≠ .error .multipleResultsFound

theorem serve_orderly (req : Request) : sessions.Follows Closed (serve env req) none := by
  refine Discipline.follows_ensure ((call_orderly req).mono fun out σ h => ?_)
  have hout : out ≠ .error .multipleResultsFound := by
    cases out with
    | ok a => exact nofun
    | error e => exact fun heq => h.1 (Except.error.inj heq)
  refine ⟨?_, fun _ _ => ⟨rfl, hout⟩⟩
  cases σ <;> trivial

end SecureIam
