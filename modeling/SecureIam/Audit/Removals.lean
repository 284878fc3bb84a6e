import SecureIam.Access.Revocation
import SecureIam.Audit.Growth

/-!
What the calls that remove something remove, and what they tell of it: their answers, and
the events that they record.
-/
namespace SecureIam
open Lib
variable {env : Environment} {t t' : Tables} {k : Removable}

/-- What is removed, as the call and the event name it. A refresh token is removed by a
logout, which revokes it. -/
inductive Removable where
  | assignment (userId roleId : Uuid) (organizationId : Option Uuid)
  | grant (roleId permissionId : Uuid)
  | membership (userId organizationId : Uuid)
  | token (id : Uuid)
deriving DecidableEq, Repr

namespace Removable

def stands (t : Tables) : Removable → Bool
  | assignment u r o => t.hasKey (.assignment u r o)
  | grant r p => t.hasKey (.rolePermission r p)
  | membership u o => t.hasKey (.membershipOf u o)
  | token id => t.refreshTokens.any fun x => x.id = id ∧ x.revokedAt = none

/-- The call asks for the removal and answers whether it was made; a logout answers nothing. -/
def asked : Removable → Request → Bool
  | assignment u r o, .revokeRole u' r' o' _ => u = u' ∧ r = r' ∧ o = o'
  | grant r p, .removePermissionFromRole r' p' _ => r = r' ∧ p = p'
  | membership u o, .removeMember u' o' _ => u = u' ∧ o = o'
  | _, _ => false

/-- The event tells of the removal. That of a logout does not say which token it was. -/
def named (event : AuditLog) : Removable → Bool
  | assignment u r o =>
      event.action = .roleRevoked ∧ event.targetId = some u ∧ event.organizationId = o ∧
      event.eventMetadata = some [("role_id", .uuid r)]
  | grant r p => event.action = .permissionRemovedFromRole ∧ event.targetId = some r ∧
      event.eventMetadata = some [("permission_id", .uuid p)]
  | membership u o => event.action = .organizationMemberRemoved ∧ event.targetId = some u ∧
      event.organizationId = some o
  | token _ => event.action = .userLogout

/-- What is asked of tokens only. -/
@[simp] def ifToken (f : Uuid → Bool) : Removable → Bool
  | token id => f id
  | _ => true

end Removable

def Request.isLogout : Request → Bool
  | .logout _ => true
  | _ => false

namespace Lib.Entry

/-- The statement publishes the removal. -/
def removes (k : Removable) (e : Entry (machine env) Request) : Bool :=
  k.stands e.before.state && !k.stands e.after.state && k.ifToken fun _ => e.request.isLogout

/-- The events that the statement publishes. -/
def logged (e : Entry (machine env) Request) : List AuditLog :=
  e.after.state.auditLogs.drop e.before.state.auditLogs.length

/-- The statement is that of a logout which writes to the token. -/
def logsOut (id : Uuid) (e : Entry (machine env) Request) : Bool :=
  e.request.isLogout && match e.op with
    | .updateRevokedAt id' _ => id' = id
    | _ => false

/-- What the statement is about to remove is what the call has found. -/
def findsAgain (e : Entry (machine env) Request) : Bool :=
  match e.request, e.op with
  | .revokeRole u r o _, .deleteUserRole id =>
      e.before.state.userRoles.any fun ur => ur.id = id ∧ ur.Matches u r o
  | .removeMember u o _, .deleteMembership id =>
      e.before.state.memberships.any fun m => m.id = id ∧ m.userId = u ∧ m.organizationId = o
  | .logout _, .updateRevokedAt id _ => (Removable.token id).stands e.before.state
  | _, _ => true

end Lib.Entry

/-- The user whom the event of the removal will name. -/
def Request.remover : Request → Option Uuid
  | .revokeRole _ _ _ actor | .removePermissionFromRole _ _ actor | .removeMember _ _ actor =>
      some actor
  | _ => none

/-- The statement deletes a row that is there. -/
def Lib.Entry.deletes (e : Entry (machine env) Request) : Bool :=
  match e.op with
  | .deleteUserRole id => e.before.state.userRoles.any (·.id = id)
  | .deleteRolePermission r p => e.before.state.hasKey (.rolePermission r p)
  | .deleteMembership id => e.before.state.memberships.any (·.id = id)
  | _ => false

/-- No other call has come between: what was found to be removed is still there when it is
written. And whoever deletes a row exists. -/
def Lib.Entry.Undisputed (e : Entry (machine env) Request) : Prop :=
  e.findsAgain ∧
    (e.deletes → ∀ actor ∈ e.request.remover, e.before.state.hasKey (.primary .users actor))

instance (e : Entry (machine env) Request) : Decidable e.Undisputed :=
  inferInstanceAs (Decidable (_ ∧ (_ → _)))

namespace Calls

/-- Call `i` has answered that it made the removal. -/
def returned (p : Calls env) (k : Removable) (i : Nat) : Bool :=
  p.threads[i]?.any fun th => k.asked th.request && th.outcome = some (.ok (.changed true))

/-- Call `i` has recorded that it made the removal. -/
def recorded (p : Calls env) (k : Removable) (i : Nat) : Bool :=
  ((p.world.own i).any fun e => e.logged.any k.named) && k.ifToken fun id =>
  (p.world.own i).any (·.logsOut id)

/-- The number of calls that have told of the removal. -/
def reports (p : Calls env) (k : Removable) : Nat :=
  (List.range p.threads.length).countP fun i => p.returned k i || p.recorded k i

/-- The number of times that it was made. -/
def removals (p : Calls env) (k : Removable) : Nat := p.world.trace.countP (·.removes k)

/-- No call is under way. -/
def Ended (p : Calls env) : Prop := ∀ th ∈ p.threads, th.outcome.isSome

instance (p : Calls env) : Decidable p.Ended := inferInstanceAs (Decidable (∀ _ ∈ _, _))

end Calls

namespace Tables

/-- One row is deleted, and its keys go with it. -/
theorem hasKey_deleted (ht : t.Schema) (t' : Tables) {τ : Table} {r : τ.Row} (hr : r ∈ t.rows τ)
    (hrows : t'.rows τ = (t.rows τ).filter (· ≠ r)) (hother : ∀ σ, σ ≠ τ → t'.rows σ = t.rows σ)
    (key : LockKey) :
    (t.hasKey key && !t'.hasKey key) = decide (key ∈ τ.keys r) := by
  rw [Bool.eq_iff_iff, Bool.and_eq_true, Bool.not_eq_true', decide_eq_true_iff]
  constructor
  · intro h
    obtain ⟨σ, x, hx, hkey⟩ := hasKey_iff.mp h.1
    have hgone : ∀ ρ, ∀ y ∈ t'.rows ρ, key ∉ ρ.keys y := by
      intro ρ y hy hkey'
      exact Bool.eq_false_iff.mp h.2 (hasKey_iff.mpr ⟨ρ, y, hy, hkey'⟩)
    by_cases hσ : σ = τ
    · subst hσ
      by_cases heq : x = r
      · exact heq ▸ hkey
      · refine absurd hkey (hgone σ x ?_)
        rw [hrows]
        exact List.mem_filter.mpr ⟨hx, decide_eq_true heq⟩
    · exact absurd hkey (hgone σ x (hother σ hσ ▸ hx))
  · intro hkey
    refine ⟨hasKey_iff.mpr ⟨τ, r, hr, hkey⟩, Bool.eq_false_iff.mpr fun hkey' => ?_⟩
    obtain ⟨σ, x, hx, hxkey⟩ := hasKey_iff.mp hkey'
    obtain rfl : σ = τ := (Table.mem_keys_table hxkey).symm.trans (Table.mem_keys_table hkey)
    rw [hrows, List.mem_filter] at hx
    have hne : x ≠ r := of_decide_eq_true hx.2
    exact hne (ht.row_unique hx.1 hr hxkey hkey)

end Tables

/-- The write removes what it is found to remove. -/
inductive Write.Takes (t : Tables) : Write → Removable → Prop
  | assignment {ur : UserRole} (h : ur ∈ t.userRoles) :
      Takes t (.deleteUserRole ur) (.assignment ur.userId ur.roleId ur.organizationId)
  | grant {rp : RolePermission} (h : rp ∈ t.rolePermissions) :
      Takes t (.deleteRolePermission rp) (.grant rp.roleId rp.permissionId)
  | membership {m : OrganizationMembership} (h : m ∈ t.memberships) :
      Takes t (.deleteMembership m) (.membership m.userId m.organizationId)
  | token {x : RefreshToken} {now : Time} (h : x ∈ t.refreshTokens) (hlive : x.revokedAt = none) :
      Takes t (.setRevokedAt x.id now) (.token x.id)

theorem Removable.stands_revoked (t : Tables) (id id' : Uuid) (now : Time) :
    (token id').stands ((Write.setRevokedAt id now).apply t) =
      (decide (id' ≠ id) && (token id').stands t) := by
  simp only [stands, Write.apply, List.any_map]
  induction t.refreshTokens with
  | nil => simp
  | cons x rows ih =>
      simp only [List.any_cons, ih, Function.comp_apply, Bool.and_or_distrib_left]
      congr 1
      by_cases hx : x.id = id
      · subst hx
        by_cases hid : id' = x.id <;> simp [hid, eq_comm]
      · by_cases hid : id' = id <;> simp [hx, hid]

theorem Write.Takes.stands {w : Write} (h : w.Takes t k) (ht : t.Schema) (k' : Removable) :
    (k'.stands t && !k'.stands (w.apply t)) = decide (k' = k) := by
  have same : ∀ b : Bool, (b && !b) = false := fun b => by cases b <;> rfl
  cases h with
  | @assignment ur h =>
      have hkeys := Tables.hasKey_deleted (τ := .userRoles) ht
        ((Write.deleteUserRole ur).apply t) h rfl
        fun σ hσ => by cases σ <;> first | rfl | exact absurd rfl hσ
      cases k' with
      | token id => exact same _
      | _ => exact (hkeys _).trans (decide_eq_decide.mpr (by simp [Table.keys]))
  | @grant rp h =>
      have hkeys := Tables.hasKey_deleted (τ := .rolePermissions) ht
        ((Write.deleteRolePermission rp).apply t) h
        rfl fun σ hσ => by cases σ <;> first | rfl | exact absurd rfl hσ
      cases k' with
      | token id => exact same _
      | _ => exact (hkeys _).trans (decide_eq_decide.mpr (by simp [Table.keys]))
  | @membership m h =>
      have hkeys := Tables.hasKey_deleted (τ := .memberships) ht
        ((Write.deleteMembership m).apply t) h
        rfl fun σ hσ => by cases σ <;> first | rfl | exact absurd rfl hσ
      cases k' with
      | token id => exact same _
      | _ => exact (hkeys _).trans (decide_eq_decide.mpr (by simp [Table.keys]))
  | @token x now h hlive =>
      cases k' with
      | token id =>
          have hstands : (Removable.token x.id).stands t = true :=
            List.any_eq_true.mpr ⟨x, h, decide_eq_true ⟨rfl, hlive⟩⟩
          rw [Removable.stands_revoked]
          by_cases hid : id = x.id
          · simp [hid, hstands]
          · simp [hid]
      | _ => exact same _

theorem Write.Takes.logs {w : Write} (h : w.Takes t k) : (w.apply t).auditLogs = t.auditLogs := by
  cases h <;> rfl

end SecureIam
