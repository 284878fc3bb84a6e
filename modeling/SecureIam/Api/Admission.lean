import SecureIam.Api.Answers
import SecureIam.Api.Escalation
import SecureIam.Services.Errors

/-!
Who gets in: a request behind a permission is not refused to a caller who has it. Only the
dependencies answer with 401 or 403; whatever else such a route raises is something else.
-/
namespace SecureIam.Api
open Lib Program
variable {env : Environment} {req : HttpRequest} {u : Uuid} {resource action : String} {s : Solo}

/-- The caller is not authenticated, or not allowed. -/
def Refusal : Error → Prop
  | .http status _ => status = 401 ∨ status = 403
  | _ => False

theorem known_admits {route : Route} (hguard : route.guard = .permission resource action)
    {e : Error} {status : Nat} {detail : String} (h : route.known e = some (status, detail)) :
    status = 404 ∨ status = 409 := by
  cases route <;> cases hguard <;> cases e <;> cases h <;> simp

/-- Past its guard, a route refuses nothing any more. -/
theorem answered_raises {route : Route} (hguard : route.guard = .permission resource action)
    (caller : Uuid) : (answered env route caller).Raises fun e => ¬ Refusal e := by
  have hcall : RaisesInternal (call env (route.request caller)) := by
    cases route with
    | createRole n d o => exact (createRole_raises n d o caller).bind fun _ => trivial
    | assignPermissionToRole r p =>
        exact (assignPermissionToRole_raises r p caller).bind fun _ => trivial
    | removePermissionFromRole r p =>
        exact (removePermissionFromRole_raises r p caller).bind fun _ => trivial
    | assignRoleToUser u r o => exact (assignRole_raises u r o caller).bind fun _ => trivial
    | revokeRoleFromUser u r o => exact (revokeRole_raises u r o caller).bind fun _ => trivial
    | getUserPermissions u o => exact (getUserPermissions_raises u o).bind fun _ => trivial
    | createOrganization n => exact (createOrganization_raises n caller).bind fun _ => trivial
    | addOrganizationMember o u => exact (addMember_raises u o caller).bind fun _ => trivial
    | removeOrganizationMember o u => exact (removeMember_raises u o caller).bind fun _ => trivial
    | listOrganizationMembers o => exact (listMembers_raises o).bind fun _ => trivial
    | listAuditLogs f limit offset =>
        exact (listEvents_raises f limit offset).bind fun _ => trivial
    | _ => cases hguard
  refine Raises.bind (Raises.handle hcall fun e he => ?_) fun _ => trivial
  split
  · rename_i status detail hknown
    intro hrefusal
    have hstatus := known_admits hguard hknown
    simp only [Refusal] at hrefusal
    omega
  · cases e <;> simp_all [Refusal, Error.Internal, Raises]

section Guard
variable (hs : s.view.Schema) (hcaller : req.caller env (env.clock s.step) = some u)
include hs hcaller

theorem getCurrentUser_ends (hactive : s.view.Active u) :
    ∃ user s', Ends env (getCurrentUser env req.authorization) s (.ok user) s' ∧ user.id = u ∧
      s'.view = s.view := by
  simp only [HttpRequest.caller] at hcaller
  split at hcaller
  · obtain ⟨token, hbearer, hcaller⟩ := Option.bind_eq_some_iff.mp hcaller
    obtain ⟨claims, hclaims, hid⟩ := Option.bind_eq_some_iff.mp hcaller
    obtain ⟨user, huser, huserId, -⟩ := hactive
    have hkeys : ∀ x : User, decide (x.id = u) = true →
        .primary .users u ∈ Table.users.keys x := by
      simp +contextual [Table.keys]
    have hfind := find?_of_key (τ := .users) hs huser hkeys (by simpa using huserId)
    have hlookup : Ends env (UserRepository.getById u) s.next
        (.ok (s.next.view.users.find? (·.id = u))) s.next.touch :=
      ends_lookup (s := s.next) (τ := .users) (k := .primary .users u) (p := (·.id = u)) hs hkeys
    have hdecode : Ends env (decodeAccessToken env token) s (.ok (some claims)) s.next := by
      rw [← hclaims]
      rfl
    refine ⟨user, s.next.touch, ?_, huserId, rfl⟩
    simp only [getCurrentUser, hbearer]
    refine hdecode.bind ?_
    simp only [hid]
    refine hlookup.bind ?_
    rw [show s.next.view.users.find? (·.id = u) = some user from hfind]
    rfl
  · cases hcaller

theorem requirePermission_ends (hallows : s.view.Allows u resource action none) :
    ∃ user s', Ends env (requirePermission env resource action req.authorization) s (.ok user)
      s' := by
  obtain ⟨user, s₁, huser, rfl, hview⟩ := getCurrentUser_ends hs hcaller hallows.1
  have hdecided : ∃ s₂, Ends env (AuthorizationService.authorize env user.id resource action) s₁
      (.ok ⟨decide (s₁.view.Allows user.id resource action none), resource, action, none⟩) s₂ ∧
      s₂.committed = s₁.committed ∧ s₂.before = s₁.before :=
    AuthorizationService.authorize_ends (hview ▸ hs) resource action
  obtain ⟨s₂, hdecision, -⟩ := hdecided
  rw [hview, decide_eq_true hallows] at hdecision
  exact ⟨user, s₂, huser.bind (hdecision.bind rfl)⟩

end Guard

/-- Nobody is refused who has the permission when they call. -/
theorem served_admitted {p p' : Server env} {out : Except Error HttpResponse}
    (hschema : p.tables.Schema) (howner : ∀ e ∈ p.world.trace, e.pid < p.threads.length)
    (hguard : req.route.guard = .permission resource action)
    (hcaller : req.caller env (env.clock p.world.trace.length) = some u)
    (hallows : p.tables.Allows u resource action none)
    (hserved : Served (respond env) p req out p') {e : Error} (hout : out = .error e) :
    ¬ Refusal e := by
  obtain ⟨l, w, hrun, -⟩ := hserved.ran
  obtain ⟨out', stop, l₁, w₁, hhandler, hrollback, hstop⟩ := run_ensure hrun
  obtain rfl : out = out' := by
    cases stop with
    | ok _ => exact hstop
    | error e' =>
        have hnone : App.rollback.Raises fun _ => False := raises_issue (S := sql) Stmt.rollback
        exact (hnone.run hrollback).elim
  subst hout
  rw [handler_permission hguard, run_bind] at hhandler
  obtain ⟨⟨out₁, l₂, w₂⟩, hguarded, hanswered⟩ := Option.bind_eq_some_iff.mp hhandler
  obtain ⟨user, s', hends⟩ := requirePermission_ends (s := .start p.world.trace.length p.tables)
    hschema hcaller hallows
  obtain ⟨rfl, -⟩ := solo_run hschema (fun e he => Nat.ne_of_lt (howner e he)) hends hguarded
  exact (answered_raises hguard user.id).run hanswered

end SecureIam.Api
