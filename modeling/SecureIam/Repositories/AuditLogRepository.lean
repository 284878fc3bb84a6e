import SecureIam.Repositories.Basic
import Mathlib.Data.List.Sort

/-!
`app/repositories/audit_log_repository.py`: an append-only log. `occurred_at` is the
time at which the recording transaction began, and a query may return events of one
time in any order.
-/
namespace SecureIam.AuditLogRepository
open Lib App

def draft (r : AuditRecord) : Table.Draft .auditLogs where
  row id now :=
    ⟨id, now, r.actorUserId, r.action, r.targetType, r.targetId, r.organizationId, r.eventMetadata⟩
  drawn u now id h := by simpa [Table.keys] using h

def record (r : AuditRecord) : App AuditLog := do
  let log ← insert .auditLogs (draft r)
  commit
  refresh .auditLogs log.id

structure EventFilter where
  organizationId : Option Uuid := none
  actorUserId : Option Uuid := none
  action : Option String := none
deriving DecidableEq, Repr

def EventFilter.matching (f : EventFilter) (t : Tables) : List AuditLog :=
  t.auditLogs.filter fun e =>
    (f.organizationId = none ∨ e.organizationId = f.organizationId) ∧
    (f.actorUserId = none ∨ e.actorUserId = f.actorUserId) ∧
    (f.action = none ∨ some e.action.text = f.action)

/-- `ORDER BY occurred_at DESC LIMIT limit OFFSET offset` -/
def page (limit offset : Nat) (events : List AuditLog) : List AuditLog :=
  ((events.insertionSort fun a b => b.occurredAt ≤ a.occurredAt).drop offset).take limit

def listEvents (f : EventFilter) (limit offset : Nat) : App (List AuditLog) :=
  issue (.selectAuditLogs f.matching (page limit offset))

def countEvents (f : EventFilter) : App Nat :=
  issue (.countAuditLogs f.matching)

end SecureIam.AuditLogRepository
