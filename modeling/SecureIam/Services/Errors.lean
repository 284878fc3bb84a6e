import SecureIam.Services.Requests

/-!
What the services raise. None of those behind the routers for roles, organizations and the
audit log has an HTTP error of its own: a route gets one from its dependencies, or makes one.
-/
namespace SecureIam
open Lib App Program
variable {env : Environment} {α : Type} {τ : Table}

/-- Not an `HTTPException`. -/
def Error.Internal : Error → Prop
  | http _ _ => False
  | _ => True

abbrev RaisesInternal (p : App α) : Prop := p.Raises Error.Internal

theorem raises_stmt (o : Stmt) : RaisesInternal (App.issue o) := raises_issue (S := sql) o

theorem raises_scalarOneOrNone (rows : List α) : RaisesInternal (scalarOneOrNone rows) := by
  cases rows with
  | nil => trivial
  | cons r rows => cases rows <;> trivial

theorem raises_insert (draft : τ.Draft) : RaisesInternal (App.insert τ draft) := by
  refine (raises_stmt (.insert τ draft)).bind fun r => ?_
  cases r <;> trivial

theorem raises_refresh (τ : Table) (id : Uuid) : RaisesInternal (App.refresh τ id) := by
  refine (raises_stmt (.refresh τ id)).bind fun r => ?_
  cases r <;> trivial

theorem raises_commit : RaisesInternal commit := raises_stmt .commit

theorem raises_exceptIntegrityError {p : App α} {e : Error} (h : RaisesInternal p)
    (he : e.Internal) : RaisesInternal (exceptIntegrityError p e) := by
  refine h.handle fun e' he' => ?_
  split
  · exact (raises_stmt .rollback).bind fun _ => he
  · exact he'

theorem raises_insertOne {draft : τ.Draft} {e : Error} {id : τ.Row → Uuid} (he : e.Internal) :
    RaisesInternal (do
      let row ← exceptIntegrityError
        (do
          let row ← App.insert τ draft
          commit
          return row) e
      App.refresh τ (id row)) := by
  have htry : RaisesInternal (do
      let row ← App.insert τ draft
      commit
      return row) :=
    (raises_insert draft).bind fun _ => raises_commit.bind fun _ => trivial
  exact (raises_exceptIntegrityError htry he).bind fun _ => raises_refresh _ _

theorem raises_selectOne (q : Tables → List τ.Row) :
    RaisesInternal (do scalarOneOrNone (← select τ q)) :=
  (raises_stmt (.select τ q)).bind raises_scalarOneOrNone

theorem raises_record (r : AuditRecord) : RaisesInternal (AuditLogRepository.record r) :=
  (raises_insert _).bind fun _ => raises_commit.bind fun _ => raises_refresh _ _

/-- Record an event, then return. -/
theorem raises_record_then (r : AuditRecord) (a : α) : RaisesInternal (do
    let _ ← AuditLogRepository.record r
    return a) :=
  (raises_record r).bind fun _ => trivial

/-- Make a change, some of whose errors are translated, and record its event. -/
theorem raises_recorded {β : Type} {p : App β} {f : Error → App β} {r : β → AuditRecord}
    {a : β → α} (hp : RaisesInternal p) (hf : ∀ e, e.Internal → RaisesInternal (f e)) :
    RaisesInternal (do
      let x ← p.handle f
      let _ ← AuditLogRepository.record (r x)
      return a x) :=
  (hp.handle hf).bind fun x => raises_record_then (r x) (a x)

/-- `if c: raise e`, and what follows. -/
theorem raises_unless {c : Prop} [Decidable c] {e : Error} {p : App α} (he : e.Internal)
    (hp : RaisesInternal p) :
    RaisesInternal (if c then (Program.raise e : App Unit).bind fun _ => p else p) := by
  split
  · exact he
  · exact hp

section Access
open AuthorizationService OrganizationService

theorem requireOrganization_raises (o : Option Uuid) : RaisesInternal (requireOrganization o) := by
  cases o with
  | none => trivial
  | some o =>
      refine Raises.bind (raises_selectOne _) fun r => ?_
      split <;> trivial

theorem requireMember_raises (u : Uuid) (o : Option Uuid) : RaisesInternal (requireMember u o) := by
  cases o with
  | none => trivial
  | some o =>
      refine (requireOrganization_raises _).bind fun _ => ?_
      refine Raises.bind ?_ fun b => ?_
      · refine (raises_stmt (.select .memberships _)).bind fun rows => ?_
        exact (raises_scalarOneOrNone rows).bind fun _ => trivial
      · split <;> trivial

theorem createRole_raises (n : String) (d : Option String) (o : Option Uuid) (actor : Uuid) :
    RaisesInternal (createRole n d o actor) := by
  refine (requireOrganization_raises o).bind fun _ => ?_
  refine raises_recorded (raises_insertOne trivial) fun e he => ?_
  split
  · trivial
  · exact he

theorem assignRole_raises (u r : Uuid) (o : Option Uuid) (actor : Uuid) :
    RaisesInternal (assignRole u r o actor) := by
  refine Raises.bind (raises_selectOne _) fun role => ?_
  split
  · trivial
  · refine raises_unless trivial ?_
    refine (requireMember_raises u o).bind fun _ => ?_
    refine raises_recorded (raises_insertOne trivial) fun e he => ?_
    split
    · trivial
    · exact he

theorem revokeRole_raises (u r : Uuid) (o : Option Uuid) (actor : Uuid) :
    RaisesInternal (revokeRole u r o actor) := by
  refine Raises.bind (Raises.bind (raises_stmt (.select .userRoles _)) fun rows =>
    (raises_scalarOneOrNone rows).bind fun found => ?_) fun revoked => ?_
  · split
    · trivial
    · exact (raises_stmt (.deleteUserRole _)).bind fun _ => raises_commit.bind fun _ => trivial
  · split
    · exact raises_record_then _ _
    · trivial

theorem assignPermissionToRole_raises (r p actor : Uuid) :
    RaisesInternal (assignPermissionToRole r p actor) := by
  refine Raises.bind (raises_selectOne _) fun role => ?_
  split
  · trivial
  · refine Raises.bind (raises_selectOne _) fun permission => raises_unless trivial ?_
    refine raises_recorded (raises_exceptIntegrityError ?_ trivial) fun e he => ?_
    · exact (raises_insert (τ := .rolePermissions) _).bind fun _ => raises_commit
    · split
      · trivial
      · exact he

theorem removePermissionFromRole_raises (r p actor : Uuid) :
    RaisesInternal (removePermissionFromRole r p actor) := by
  refine Raises.bind (raises_selectOne _) fun role => ?_
  split
  · trivial
  · refine Raises.bind ?_ fun removed => ?_
    · exact (raises_stmt (.deleteRolePermission r p)).bind fun _ => raises_commit.bind
        fun _ => trivial
    · split
      · exact raises_record_then _ _
      · trivial

theorem getUserPermissions_raises (u : Uuid) (o : Option Uuid) :
    RaisesInternal (getUserPermissions env u o) :=
  Raises.bind (raises_stmt (.select .permissions _)) fun _ => trivial

theorem createOrganization_raises (n : String) (actor : Uuid) :
    RaisesInternal (createOrganization n actor) := by
  refine raises_recorded (raises_insertOne trivial) fun e he => ?_
  split
  · trivial
  · exact he

theorem addMember_raises (u o actor : Uuid) : RaisesInternal (addMember u o actor) := by
  refine Raises.bind (raises_selectOne _) fun user => raises_unless trivial ?_
  refine (requireOrganization_raises _).bind fun _ => ?_
  refine raises_recorded (raises_insertOne trivial) fun e he => ?_
  split
  · trivial
  · exact he

theorem removeMember_raises (u o actor : Uuid) : RaisesInternal (removeMember u o actor) := by
  refine Raises.bind (Raises.bind (raises_stmt (.select .memberships _)) fun rows =>
    (raises_scalarOneOrNone rows).bind fun found => ?_) fun removed => ?_
  · split
    · trivial
    · exact (raises_stmt (.deleteMembership _)).bind fun _ => raises_commit.bind
        fun _ => trivial
  · split
    · exact raises_record_then _ _
    · trivial

theorem listMembers_raises (o : Uuid) : RaisesInternal (listMembers o) :=
  (requireOrganization_raises _).bind fun _ =>
    Raises.bind (raises_stmt (.selectMembers _ _)) fun _ => trivial

theorem listEvents_raises (f : AuditLogRepository.EventFilter) (limit offset : Nat) :
    RaisesInternal (AuditLogService.listEvents f limit offset) :=
  Raises.bind (raises_stmt (.selectAuditLogs _ _)) fun _ =>
    Raises.bind (raises_stmt (.countAuditLogs _)) fun _ => trivial

end Access

end SecureIam
