import SecureIam.Access.Permissions
import SecureIam.Lib.Paging

/-!
Reading the audit log page by page. A query fixes the order of its rows only by
`occurred_at`, so the environment may put the events of one time in another order for
each page.
-/
namespace SecureIam
open Lib AuditLogRepository
variable {env : Environment} {t : Tables} {f : EventFilter} {limit : Nat}

/-- What `list_events` answers when its first query is step `n` of the run. -/
def eventPage (env : Environment) (f : EventFilter) (limit offset : Nat) (t : Tables) (n : Nat) :
    AuditLogPageResponse :=
  ⟨page limit offset (env.scan n (f.matching t)), (f.matching t).length, limit, offset⟩

theorem listEvents_ends (env : Environment) (f : EventFilter) (limit offset : Nat) (s : Solo) :
    Ends env (serve env (.listEvents f limit offset)) s
      (.ok (.events (eventPage env f limit offset s.view s.step)))
      ⟨s.step + 3, none, s.before, s.committed, s.committed⟩ := by
  have hlist : Ends env (AuditLogService.listEvents f limit offset) s
      (.ok (eventPage env f limit offset s.view s.step)) s.touch.touch := rfl
  exact Program.eval_ensure (hlist.map Response.events) rfl

namespace Calls
variable {p : Calls env}

/-- A page is read whatever else is going on, and nothing is changed by it. -/
theorem Sound.page_served (h : p.Sound) (f : EventFilter) (limit offset : Nat) : ∃ p' : Calls env,
    Served (serve env) p (.listEvents f limit offset)
      (.ok (.events (eventPage env f limit offset p.tables p.world.trace.length))) p' ∧
    p'.tables = p.tables ∧ p'.world.trace.length = p.world.trace.length + 3 := by
  have hends := listEvents_ends env f limit offset (.start p.world.trace.length p.tables)
  obtain ⟨out, p', hserved⟩ := p.read_served (.listEvents f limit offset) rfl rfl
  obtain ⟨l, w, hrun, rfl⟩ := hserved.ran
  obtain ⟨rfl, hdescribes⟩ := solo_run h.inv.schema (fun e he => Nat.ne_of_lt (h.owner e he))
    hends hrun
  exact ⟨_, ⟨l, w, hrun, rfl⟩, hdescribes.fits.committed, hdescribes.step⟩

end Calls

/-- The requests of a client that turns the pages of a log with `total` events. -/
def pageRequests (f : EventFilter) (limit total : Nat) : List Request :=
  (List.range (total / limit + 1)).map fun k => .listEvents f limit (k * limit)

/-- A client reads all pages while nobody else takes a step. -/
def Calls.Turns (p : Calls env) (f : EventFilter) (limit : Nat)
    (pages : List AuditLogPageResponse) : Prop :=
  ∃ calls p', Serial (serve env) p calls p' ∧
    calls.map (·.1) = pageRequests f limit (f.matching p.tables).length ∧
    calls.map (·.2) = pages.map fun page => .ok (.events page)

theorem pages_served {p : Calls env} (h : p.Sound) (f : EventFilter) (limit c : Nat) : ∃ p' :
    Calls env,
    Serial (serve env) p
      ((List.range c).map fun k => (.listEvents f limit (k * limit), .ok (.events
        (eventPage env f limit (k * limit) p.tables (p.world.trace.length + 3 * k))))) p' ∧
    p'.Sound ∧ p'.tables = p.tables ∧ p'.world.trace.length = p.world.trace.length + 3 * c := by
  induction c with
  | zero => exact ⟨p, .nil p, h, rfl, rfl⟩
  | succ c ih =>
      obtain ⟨q, hserial, hq, htables, hlength⟩ := ih
      obtain ⟨p', hserved, htables', hlength'⟩ := hq.page_served f limit (c * limit)
      rw [htables, hlength] at hserved
      refine ⟨p', ?_, hq.reaches hserved.reaches, htables'.trans htables, by omega⟩
      rw [List.range_succ, List.map_append]
      exact hserial.append (.cons hserved (.nil p'))

theorem Calls.Sound.turns_iff {p : Calls env} (h : p.Sound) {pages : List AuditLogPageResponse} :
    p.Turns f limit pages ↔ pages = (List.range ((f.matching p.tables).length / limit + 1)).map
      fun k =>
      eventPage env f limit (k * limit) p.tables (p.world.trace.length + 3 * k) := by
  obtain ⟨p', hserial, -⟩ := pages_served h f limit ((f.matching p.tables).length / limit + 1)
  have hinj : Function.Injective fun page : AuditLogPageResponse =>
      (.ok (.events page) : Except Error Response) := by
    intro page page' heq
    cases heq
    rfl
  constructor
  · intro hturns
    obtain ⟨calls, p'', hcalls, hreqs, houts⟩ := hturns
    have hunique := (hcalls.unique hserial (by simp [hreqs, pageRequests])).1
    rw [hunique] at houts
    refine (List.map_injective_iff.mpr hinj) ?_
    rw [← houts]
    simp
  · intro heq
    exact ⟨_, p', hserial, by simp [pageRequests], by simp [heq]⟩

/-- The environment with another choice of row order. -/
def Environment.scanning (env : Environment) (scan : {α : Type} → Nat → List α → List α)
    (hscan : ∀ {α : Type} (n : Nat) (rows : List α), (scan n rows).Perm rows) : Environment :=
  { env with scan := scan, scan_perm := hscan }

/-- The pages hold every event once, newest first, and each of them says how many there are. -/
structure Partitions (logs : List AuditLog) (pages : List AuditLogPageResponse) : Prop where
  total : ∀ page ∈ pages, page.total = logs.length
  once : (pages.flatMap (·.events)).Perm logs
  sorted : (pages.flatMap (·.events)).Pairwise fun a b => b.occurredAt ≤ a.occurredAt

/-- The orders in which the pages are cut. -/
theorem flatMap_events (env : Environment) (f : EventFilter) (limit : Nat) (t : Tables) (c : Nat) :
    ((List.range c).map fun k => eventPage env f limit (k * limit) t (3 * k)).flatMap (·.events) =
      (List.range c).flatMap fun k => pageAt limit k
        ((env.scan (3 * k) (f.matching t)).insertionSort fun a b =>
          b.occurredAt ≤ a.occurredAt) := by
  rw [List.flatMap_map]
  rfl

theorem partitions_of_untied (hlimit : 0 < limit)
    (hties : ∀ k, Untied AuditLog.occurredAt (f.matching t) (k * limit)) :
    Partitions (f.matching t) ((List.range ((f.matching t).length / limit + 1)).map fun k =>
      eventPage env f limit (k * limit) t (3 * k)) := by
  have orders : ∀ k, Ordering AuditLog.occurredAt (f.matching t)
      ((env.scan (3 * k) (f.matching t)).insertionSort fun a b => b.occurredAt ≤ a.occurredAt) := by
    intro k
    have h := ordering_insertionSort AuditLog.occurredAt (env.scan (3 * k) (f.matching t))
    exact ⟨h.perm.trans (env.scan_perm _ _), h.sorted⟩
  have hlong : (f.matching t).length ≤ ((f.matching t).length / limit + 1) * limit :=
    (Nat.lt_div_mul_add hlimit).le.trans_eq (Nat.succ_mul _ _).symm
  have hlong' := (orders 0).perm.length_eq.trans_le hlong
  refine ⟨fun page hpage => ?_, ?_, ?_⟩
  · obtain ⟨k, -, rfl⟩ := List.mem_map.mp hpage
    rfl
  · rw [flatMap_events]
    have hperm := pages_perm limit orders hties ((f.matching t).length / limit + 1)
    rw [List.take_of_length_le hlong'] at hperm
    exact hperm.trans (orders 0).perm
  · rw [flatMap_events]
    have hkeys := pages_keys limit orders ((f.matching t).length / limit + 1)
    rw [List.take_of_length_le (by simpa using hlong')] at hkeys
    have hsorted := (orders 0).keys_sorted
    rw [← hkeys] at hsorted
    exact List.pairwise_map.mp hsorted

/-- The order turns round before page `c`. -/
def turnedAt (c : Nat) {α : Type} (n : Nat) (rows : List α) :
    List α := if n < 3 * c then rows else rows.reverse

theorem turnedAt_perm (c : Nat) {α : Type} (n : Nat) (rows : List α) :
    (turnedAt c n rows).Perm rows := by
  rw [turnedAt]
  split
  · exact .refl rows
  · exact List.reverse_perm rows

theorem not_partitions_of_tied (ht : t.Schema) (hlimit : 0 < limit) {c : Nat}
    (htie : ¬ Untied AuditLog.occurredAt (f.matching t) (c * limit)) :
    ¬ Partitions (f.matching t) ((List.range ((f.matching t).length / limit + 1)).map fun k =>
      eventPage (env.scanning (turnedAt c) (turnedAt_perm c)) f limit (k * limit) t (3 * k)) := by
  intro hpages
  have honce := hpages.once
  rw [flatMap_events] at honce
  have hc : c ≤ (f.matching t).length / limit + 1 := by
    obtain ⟨time, htime⟩ := not_forall.mp htie
    have hlt := (not_le.mp (not_or.mp htime).2).trans_le List.countP_le_length
    exact ((Nat.le_div_iff_mul_le hlimit).mpr hlt.le).trans (Nat.le_succ _)
  have hlong : (f.matching t).length ≤ ((f.matching t).length / limit + 1) * limit :=
    (Nat.lt_div_mul_add hlimit).le.trans_eq (Nat.succ_mul _ _).symm
  have backwards := ordering_insertionSort AuditLog.occurredAt (f.matching t).reverse
  refine not_take_perm_of_tied ((ht.nodup .auditLogs).filter _) htie ?_
  refine take_perm_of_pages hc
    ((backwards.perm.trans (List.reverse_perm _)).length_eq.trans_le hlong) ?_
  refine .trans (.of_eq ?_) (honce.trans (backwards.perm.trans (List.reverse_perm _)).symm)
  refine List.flatMap_congr fun k _ => ?_
  simp only [Environment.scanning, turnedAt, Nat.mul_lt_mul_left (show 0 < 3 by decide)]
  split <;> rfl

/-- Whatever order the queries choose, the pages partition the log, if and only if no two
events of one time stand on the two sides of a page boundary. -/
theorem pages_partition_iff (ht : t.Ready env) (f : EventFilter) (hlimit : 0 < limit) :
    (∀ scan hscan, ∃ pages, (Calls.fresh (env.scanning scan hscan) t).Turns f limit pages ∧
      Partitions (f.matching t) pages) ↔
    ∀ k, Untied AuditLog.occurredAt (f.matching t) (k * limit) := by
  have turns : ∀ scan hscan pages, (Calls.fresh (env.scanning scan hscan) t).Turns f limit pages ↔
      pages = (List.range ((f.matching t).length / limit + 1)).map fun k =>
        eventPage (env.scanning scan hscan) f limit (k * limit) t (3 * k) := by
    intro scan hscan pages
    have hsound := (Calls.sound_fresh
      ⟨ht.schema, ht.undrawn⟩ : (Calls.fresh (env.scanning scan hscan) t).Sound)
    rw [hsound.turns_iff]
    simp [Calls.fresh]
  constructor
  · intro hall c
    by_contra htie
    obtain ⟨pages, hpages, hpartitions⟩ := hall (turnedAt c) (turnedAt_perm c)
    rw [turns] at hpages
    exact not_partitions_of_tied ht.schema hlimit htie (hpages ▸ hpartitions)
  · intro hties scan hscan
    exact ⟨_, (turns scan hscan _).mpr rfl, partitions_of_untied hlimit hties⟩

def failedRegistration (id : Uuid) (now : Time) : AuditLog :=
  ⟨id, now, none, .userRegistrationFailed, none, none, none, none⟩

/-- Two of one time, and an earlier one. -/
def spacedTables : Tables where
  auditLogs := [failedRegistration ⟨1⟩ 1, failedRegistration ⟨3⟩ 1, failedRegistration ⟨5⟩ 0]

theorem spacedTables_ready : spacedTables.Ready plainEnvironment := by
  refine ⟨⟨fun τ => ?_, fun τ => ?_⟩, fun m τ => ?_⟩
  · cases τ <;> decide
  · cases τ <;> decide
  · cases τ <;> simp [spacedTables, failedRegistration, Tables.hasKey, Tables.rows, LockKey.table,
      Table.keys, plainEnvironment]
    omega

/-- Within a page the order does not matter. -/
theorem pages_partition_iff_twoPages :
    (∀ k, Untied AuditLog.occurredAt (EventFilter.matching {} spacedTables) (k * 2)) ∧
    ∀ scan hscan, ∃ pages, (Calls.fresh (plainEnvironment.scanning scan hscan) spacedTables).Turns
      {} 2 pages ∧ Partitions (EventFilter.matching {} spacedTables) pages := by
  have hevents : EventFilter.matching {} spacedTables =
      [failedRegistration ⟨1⟩ 1, failedRegistration ⟨3⟩ 1, failedRegistration ⟨5⟩ 0] := rfl
  have hties : ∀ k, Untied AuditLog.occurredAt (EventFilter.matching {} spacedTables) (k * 2) := by
    rw [hevents]
    intro k c
    match k with
    | 0 => exact .inl (Nat.zero_mul 2 ▸ Nat.zero_le _)
    | 1 =>
        by_cases hc : c ≤ 0
        · have hlt : c < 1 := lt_of_le_of_lt hc (by decide)
          exact .inl (by simp [List.countP_cons, failedRegistration, hlt])
        · refine .inr ?_
          have hlast : (if c ≤ 0 then 1 else 0) = 0 := if_neg hc
          simp only [List.countP_cons, List.countP_nil, failedRegistration, decide_eq_true_eq,
            hlast]
          split <;> simp
    | k + 2 => exact .inr (List.countP_le_length.trans (by simp; omega))
  exact ⟨hties, (pages_partition_iff spacedTables_ready {} (by decide)).mpr hties⟩

/-- Two failed registrations at one time. -/
def tiedTables : Tables where
  auditLogs := [failedRegistration ⟨1⟩ 0, failedRegistration ⟨3⟩ 0]

theorem tiedTables_ready : tiedTables.Ready plainEnvironment := by
  refine ⟨⟨fun τ => ?_, fun τ => ?_⟩, fun m τ => ?_⟩
  · cases τ <;> decide
  · cases τ <;> decide
  · cases τ <;> simp [tiedTables, failedRegistration, Tables.hasKey, Tables.rows, LockKey.table,
      Table.keys, plainEnvironment]
    omega

def turnedEnvironment : Environment := plainEnvironment.scanning (turnedAt 1) (turnedAt_perm 1)

/-- On two pages it does: one event is read twice, and the other is lost. -/
theorem event_repeated :
    ∃ p', Serial (serve turnedEnvironment) (Calls.fresh turnedEnvironment tiedTables)
    [(.listEvents {} 1 0, .ok (.events ⟨[failedRegistration ⟨1⟩ 0], 2, 1, 0⟩)),
      (.listEvents {} 1 1, .ok (.events ⟨[failedRegistration ⟨1⟩ 0], 2, 1, 1⟩)),
      (.listEvents {} 1 2, .ok (.events ⟨[], 2, 1, 2⟩))] p' :=
  Serial.of_serveAll (by decide +kernel)

end SecureIam
