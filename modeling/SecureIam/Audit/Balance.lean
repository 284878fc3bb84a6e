import SecureIam.Audit.Tally

/-!
The balance of the whole run: as many calls have told of a removal as there were removals,
while no two calls remove the same at once.
-/
namespace SecureIam
open Lib
variable {env : Environment} {i : Nat} {req : Request} {o : Stmt} {l : Session}
    {u : History env Request}
  {k : Removable}

/-- The write neither deletes a row nor tells of a removal. -/
def Write.Harmless : Write → Prop
  | .insert .auditLogs row => ∀ k : Removable, k.named row = false
  | .deleteRolePermission _ | .deleteUserRole _ | .deleteMembership _ => False
  | _ => True

def Stmt.Harmless (o : Stmt) : Prop := ∀ p, o.Writes p → p.Harmless

theorem Write.Harmless.stands {p : Write} {t : Tables} (h : p.Harmless) (hk : ∀ id, k ≠ .token id)
    (hstands : k.stands t) : k.stands (p.apply t) := by
  cases k with
  | token id => exact absurd rfl (hk id)
  | assignment x y o | grant x y | membership x o =>
      cases p with
      | insert τ row =>
          cases τ
          case rolePermissions | userRoles | memberships =>
            simp only [Removable.stands, Tables.hasKey, LockKey.table, Write.apply, Tables.insert,
              Tables.rows, List.any_append] at hstands ⊢
            simp [hstands]
          all_goals exact hstands
      | deleteRolePermission _ | deleteUserRole _ | deleteMembership _ => exact h.elim
      | _ => exact hstands

theorem harmless_view {ws : List Write} {t : Tables} (h : ∀ p ∈ ws, p.Harmless) :
    (∀ k : Removable, (∀ id, k ≠ .token id) → k.stands t →
      k.stands (Store.view (T := tableStore) ws t)) ∧
      ∃ rows, (Store.view (T := tableStore) ws t).auditLogs = t.auditLogs ++ rows ∧
        ∀ row ∈ rows, ∀ k : Removable, k.named row = false := by
  induction ws generalizing t with
  | nil => exact ⟨fun _ _ hk => hk, [], (List.append_nil _).symm, fun _ hrow => nomatch hrow⟩
  | cons p ws ih =>
      have hp := h p List.mem_cons_self
      obtain ⟨hstands, rows, hlogs, hrows⟩ := ih (t := p.apply t) fun q hq =>
        h q (List.mem_cons_of_mem p hq)
      have hfirst : ∃ new, (p.apply t).auditLogs = t.auditLogs ++ new ∧ ∀ row ∈ new,
          ∀ k : Removable, k.named row = false := by
        cases p with
        | insert τ row =>
            cases τ
            case auditLogs => exact ⟨[row], rfl, fun row' hrow => List.mem_singleton.mp hrow ▸ hp⟩
            all_goals exact ⟨[], (List.append_nil _).symm, fun _ hrow => nomatch hrow⟩
        | _ => exact ⟨[], (List.append_nil _).symm, fun _ hrow => nomatch hrow⟩
      obtain ⟨new, hnew, hnamed⟩ := hfirst
      refine ⟨fun k hk hk' => hstands k hk (hp.stands hk hk'), new ++ rows, ?_, fun row hrow => ?_⟩
      · exact hlogs.trans (by rw [hnew, List.append_assoc])
      · exact (List.mem_append.mp hrow).elim (hnamed row) (hrows row)

/-- What a call has pending that is none of the four. -/
def Session.Harmless (l : Session) : Prop := ∀ p ∈ l.pending, p.Harmless

theorem shows_harmless {e : Entry (machine env) Request} {ws : List Write}
    (hws : ∀ p ∈ ws, p.Harmless) (hreq : e.request.isLogout = false)
    (h : e.after.state = e.before.state ∨ e.after.state = Store.view (T := tableStore)
      ws e.before.state) : e.Shows none := by
  have hout : ∀ id, e.logsOut id = false := fun id => by simp [Entry.logsOut, hreq]
  cases h with
  | inl h => exact shows_none h hout
  | inr h =>
      obtain ⟨hstands, rows, hlogs, hnamed⟩ := harmless_view (t := e.before.state) hws
      refine ⟨fun k => ?_, fun k => ?_, fun id => hout id⟩
      · by_cases hk : ∃ id, k = .token id
        · obtain ⟨id, rfl⟩ := hk
          simp [Entry.removes, hreq]
        · have hkept := hstands k fun id heq => hk ⟨id, heq⟩
          rw [← h] at hkept
          cases hbefore : k.stands e.before.state with
          | false => simp [Entry.removes, hbefore]
          | true => simp [Entry.removes, hkept hbefore]
      · have hlogged : e.logged = rows := by
          rw [Entry.logged, h, hlogs]
          exact List.drop_left
        rw [hlogged]
        exact List.any_eq_false.mpr fun row hrow => by simp [hnamed row hrow k]

/-- A call that is none of the four shows nothing. -/
theorem wp_harmless {p : App Response} (hp : p.All Stmt.Harmless) (hreq : req.isLogout = false)
    (hasked : ∀ k : Removable, k.asked req = false) (htally : Tallied (u.own i) [])
    (hl : l.Harmless) :
    (soundProtocol env).wp i req (TallyPost req i) p l u := by
  have hwp : (soundProtocol env).wp i req (fun _ (l : Session) w => l.Harmless ∧
      Tallied (w.own i) []) p l u := by
    refine (soundProtocol env).wp_of_all
      (J := fun (l : Session) w => l.Harmless ∧ Tallied (w.own i) []) hp
      (fun h hr => ⟨h.1, hr.own ▸ h.2⟩) ?_ ⟨hl, htally⟩
    intro o ho r l l' w w' h hinv hloc hexec
    refine ⟨exec_sound hinv hloc hexec, trivial, ?_⟩
    obtain ⟨g, hg, hshared, -⟩ := World.exec_step hexec
    have heff := exec_effect hg
    rw [← hshared] at heff
    have hown := World.own_exec_self hexec
    rw [hown]
    cases hends : o.ends with
    | false =>
        obtain ⟨hstate, -, us, hpending, hus⟩ := heff.grows hends
        refine ⟨fun q hq => ?_, h.2.snoc (m := none) (shows_harmless h.1 hreq (.inl hstate))⟩
        rw [hpending, List.mem_append] at hq
        exact hq.elim (h.1 q) fun hq => ho q (hus q hq)
    | true =>
        obtain ⟨-, hpending, hstate⟩ := heff.ended hends
        refine ⟨fun q hq => ?_, h.2.snoc (m := none) (shows_harmless h.1 hreq hstate)⟩
        rw [hpending] at hq
        cases hq
  exact hwp.mono fun out _ _ _ _ h _ => ⟨[], h.2, .nothing fun k hk => by simp [hasked k] at hk⟩

theorem Removable.named_action {row : AuditLog} (h : k.named row = true) :
    row.action ∈
      [.roleRevoked, .permissionRemovedFromRole, .organizationMemberRemoved, .userLogout] := by
  cases k with
  | token id =>
      have haction : row.action = .userLogout := by simpa [named] using h
      simp [haction]
  | _ =>
      simp only [named, Bool.decide_and, Bool.and_eq_true, decide_eq_true_eq] at h
      simp [h.1]

/-- The tables and the events of the removals are not among those that are used. -/
def Unconcerned (τs : List Table) (as : List AuditAction) : Prop :=
  (∀ τ ∈ τs, ¬ τ.Link) ∧
    ∀ a ∈ as,
      a ∉ [.roleRevoked, .permissionRemovedFromRole, .organizationMemberRemoved, .userLogout]

theorem Stmt.Uses.harmless {τs : List Table} {as : List AuditAction} {o : Stmt} (h : o.Uses τs as)
    (hu : Unconcerned τs as) : o.Harmless := by
  intro p hp
  cases o with
  | insert τ draft =>
      obtain ⟨n, now, rfl⟩ := hp
      cases τ
      case auditLogs =>
        intro k
        refine Bool.eq_false_iff.mpr fun hnamed => ?_
        exact hu.2 _ (h n now) (Removable.named_action hnamed)
      all_goals trivial
  | deleteRolePermission _ _ | deleteUserRole _ | deleteMembership _ =>
      exact absurd (by simp [Table.Link]) (hu.1 _ h)
  | updateLastLoginAt _ _ | updateIsActive _ _ | revokeIfActive _ _ | updateRevokedAt _ _
  | updateReplacedBy _ _ =>
      exact hp ▸ trivial
  | _ => exact hp.elim

theorem harmless_of_uses {α : Type} {p : App α} {τs : List Table} {as : List AuditAction}
    (h : Uses τs as p) (hu : Unconcerned τs as) : p.All Stmt.Harmless :=
  h.mono fun _ ho => ho.harmless hu

theorem harmless_insert {τ : Table} {draft : τ.Draft} (hτ : τ ≠ .auditLogs) :
    (Stmt.insert τ draft).Harmless := by
  intro p hp
  obtain ⟨n, now, rfl⟩ := hp
  cases τ
  case auditLogs => exact absurd rfl hτ
  all_goals trivial

section Calls
open Program AuthorizationService OrganizationService

theorem unconcerned_nil : Unconcerned [] [] := ⟨by simp, by simp⟩

theorem harmless_reads {α : Type} {p : App α} (h : Uses [] [] p) : p.All Stmt.Harmless :=
  harmless_of_uses h unconcerned_nil

/-- `session.add(row); await session.commit()` in a `try`. -/
theorem harmless_tryInsert {α : Type} {τ : Table} {draft : τ.Draft} {e : Error} {f : τ.Row → App α}
    (hτ : τ ≠ .auditLogs) (hf : ∀ row, (f row).All Stmt.Harmless) :
    (App.exceptIntegrityError (do
      let row ← App.insert τ draft
      f row) e).All Stmt.Harmless := by
  refine All.handle (All.bind (All.bind (all_issue (harmless_insert hτ)) fun row => ?_) hf)
    fun e' => ?_
  · cases row <;> trivial
  · split
    · exact harmless_reads ((uses_issue (o := .rollback) trivial).bind fun _ => trivial)
    · trivial

/-- A change that is recorded as one of the others. -/
theorem harmless_recorded {α : Type} {a : AuditRecord} {p : App α}
    (ha : a.action ∉ [.roleRevoked, .permissionRemovedFromRole, .organizationMemberRemoved,
      .userLogout]) (hp : p.All Stmt.Harmless) :
    (do
      let _ ← AuditLogRepository.record a
      p).All Stmt.Harmless := by
  have hrecord : Uses [] [a.action] (AuditLogRepository.record a) :=
    uses_record (List.mem_singleton_self _)
  refine All.bind (harmless_of_uses hrecord ⟨by simp, fun a' ha' => ?_⟩) fun _ => hp
  exact List.mem_singleton.mp ha' ▸ ha

theorem assignRole_harmless (x y : Uuid) (o : Option Uuid) (actor : Uuid) :
    (assignRole x y o actor).All Stmt.Harmless := by
  refine All.bind (harmless_reads (uses_selectOne _)) fun role => ?_
  split
  · trivial
  · split
    · trivial
    · refine All.bind (harmless_reads (requireMember_uses x o)) fun _ => ?_
      refine All.bind (All.handle ?_ fun e => ?_) fun _ => harmless_recorded (by simp [roleEvent])
        trivial
      · refine All.bind (harmless_tryInsert (by simp) fun row => ?_) fun row =>
          harmless_reads (uses_refresh _ _)
        exact harmless_reads (uses_commit.bind fun _ => trivial)
      · split <;> trivial

theorem addMember_harmless (x o actor : Uuid) : (addMember x o actor).All Stmt.Harmless := by
  refine All.bind (harmless_reads (uses_selectOne _)) fun user => ?_
  split
  · trivial
  · refine All.bind (harmless_reads (requireOrganization_uses _)) fun _ => ?_
    refine All.bind (All.handle ?_ fun e => ?_) fun _ => harmless_recorded (by simp [memberEvent])
      trivial
    · refine All.bind (harmless_tryInsert (by simp) fun row => ?_) fun row =>
        harmless_reads (uses_refresh _ _)
      exact harmless_reads (uses_commit.bind fun _ => trivial)
    · split <;> trivial

theorem assignPermissionToRole_harmless (x y actor : Uuid) :
    (assignPermissionToRole x y actor).All Stmt.Harmless := by
  refine All.bind (harmless_reads (uses_selectOne _)) fun role => ?_
  split
  · trivial
  · refine All.bind (harmless_reads (uses_selectOne _)) fun permission => ?_
    split
    · trivial
    · refine All.bind (All.handle ?_ fun e => ?_) fun _ =>
        harmless_recorded (by simp [permissionEvent]) trivial
      · exact harmless_tryInsert (by simp) fun row => harmless_reads uses_commit
      · split <;> trivial

end Calls

/-- The rollback that ends a call shows nothing. -/
theorem wp_tallied (h : (soundProtocol env).wp i req (TallyPost req i) (call env req) {} u) :
    (soundProtocol env).wp i req (TallyPost req i) (serve env req) {} u := by
  refine Protocol.wp_ensure (h.mono fun out l w _ _ hpost => ?_) fun _ hpost hlater => ?_
  · refine wp_passing (o := .rollback) (f := .ret)
      fun v r w' l' hpassing w'' hlater hundisputed => ?_
    rw [hlater.1.own] at hundisputed ⊢
    obtain ⟨ms, htally, hbalanced⟩ := hpost fun e he =>
      hundisputed e (hpassing.own ▸ List.mem_append_left _ he)
    have hstate : w'.shared.state = v.shared.state := by
      rw [(exec_rollback hpassing.result).1]
      rfl
    exact ⟨ms, hpassing.idle hstate (fun _ _ => by simp) htally, hbalanced⟩
  · intro hundisputed
    rw [hlater.1.own] at hundisputed ⊢
    exact hpost hundisputed

theorem call_harmless (hlogout : req.isLogout = false) (hremover : req.remover = none) :
    (call env req).All Stmt.Harmless := by
  cases req with
  | assignRole x y o actor =>
      exact Program.All.bind (assignRole_harmless x y o actor) fun _ => trivial
  | addMember x o actor => exact Program.All.bind (addMember_harmless x o actor) fun _ => trivial
  | assignPermissionToRole x y actor =>
      exact Program.All.bind (assignPermissionToRole_harmless x y actor) fun _ => trivial
  | logout x => cases hlogout
  | revokeRole _ _ _ _ | removePermissionFromRole _ _ _ | removeMember _ _ _ => cases hremover
  | _ =>
      refine harmless_of_uses (call_uses _) ⟨?_, ?_⟩
      · simp [Request.tables, Table.Link]
      · simp [Request.actions]

theorem serve_tallies (env : Environment) : (soundProtocol env).Serves TallyPost (serve env) := by
  intro req i u hu hnew
  have hown : u.own i = [] := List.filter_eq_nil_iff.mpr fun e he => by simp [hnew e he]
  have htally : Tallied (u.own i) [] := hown ▸ .nil
  refine wp_tallied ?_
  cases hreq : req with
  | revokeRole x y o actor => exact revokeRole_tallies htally
  | removePermissionFromRole x y actor => exact removePermissionFromRole_tallies htally
  | removeMember x o actor => exact removeMember_tallies htally
  | logout x => exact logout_tallies htally
  | _ =>
      refine wp_harmless (call_harmless rfl rfl) rfl (fun k => ?_) htally fun p hp => nomatch hp
      cases k <;> rfl

/-- What a call has removed is what it has told. -/
theorem Balanced.told {p : Calls env} {th : Thread (machine env) Request Error Response}
    {out : Except Error Response} {ms : List Tally} (hth : p.threads[i]? = some th)
    (hout : th.outcome = some out) (htally : Tallied (p.world.own i) ms)
    (h : Balanced th.request out ms) (k : Removable) :
    (p.world.own i).countP (·.removes k) = (p.returned k i || p.recorded k i).toNat ∧
      (p.returned k i → p.recorded k i) ∧
        ((∀ id, k ≠ .token id) → p.recorded k i → p.returned k i) := by
  have hreturned : p.returned k i = (k.asked th.request && decide (out = .ok (.changed true))) := by
    simp [Calls.returned, hth, hout]
  have hrecorded : p.recorded k i = (ms.any (Tally.tells k) && k.ifToken fun id =>
      ms.any (· = .aimed id)) := by
    simp only [Calls.recorded, htally.logged, htally.logsOut]
  rw [htally.removals, hreturned, hrecorded]
  cases h with
  | nothing hout' =>
      have hnot : (k.asked th.request && decide (out = .ok (.changed true))) = false := by
        cases hasked : k.asked th.request with
        | false => rfl
        | true => simp [hout' k hasked]
      simp [hnot]
  | @answered k' hasked =>
      by_cases hk : k = k'
      · subst hk
        cases k with
        | token id => cases hasked
        | _ => simp [hasked, Tally.tells, Removable.alike]
      · have hnot : k.asked th.request = false :=
          Bool.eq_false_iff.mpr fun hasked' => hk (Removable.asked_unique hasked' hasked)
        have halike : k.alike k' = false := by
          cases k' with
          | token id => cases hasked
          | _ => cases k <;> exact decide_eq_false hk
        simp [hnot, Tally.tells, halike, Ne.symm hk]
  | @loggedOut x id hreq =>
      have hnot : k.asked th.request = false := by
        rw [hreq]
        cases k <;> rfl
      cases k with
      | token id' => by_cases hid : id = id' <;> simp [hnot, Tally.tells, Removable.alike, hid]
      | _ => simp [hnot, Tally.tells, Removable.alike]

namespace Calls
variable {p : Calls env}

theorem tallied_fresh {t : Tables} (ht : t.Ready env) :
    (soundProtocol env).Kept TallyPost (Calls.fresh env t) :=
  Protocol.kept_start (sound_fresh ht).inv rfl

/-- A call that has ended has told of what it has removed. -/
theorem told_of_kept (h : (soundProtocol env).Kept TallyPost p) (hended : p.Ended)
    (hundisputed : ∀ e ∈ p.world.trace, e.Undisputed) (hi : i < p.threads.length) (k : Removable) :
    (p.world.own i).countP (·.removes k) = (p.returned k i || p.recorded k i).toNat ∧
      (p.returned k i → p.recorded k i) ∧
        ((∀ id, k ≠ .token id) → p.recorded k i → p.returned k i) := by
  have hth : p.threads[i]? = some p.threads[i] := List.getElem?_eq_getElem hi
  obtain ⟨out, hout⟩ := Option.isSome_iff_exists.mp (hended _ (List.getElem_mem hi))
  have hpost := h.outcome hth (Thread.code_of_outcome hout)
  obtain ⟨ms, htally, hbalanced⟩ := hpost fun e he => hundisputed e (World.mem_own.mp he).1
  exact hbalanced.told hth hout htally k

end Calls

/-- In a run without disputes, whatever its calls are, as many of them have told of a
removal as there were removals; each has answered if and only if it has recorded it. -/
theorem removals_balanced {t : Tables} (ht : t.Ready env) {p : Calls env}
    (hr : Reaches (serve env) (Calls.fresh env t) p) (hended : p.Ended)
    (hundisputed : ∀ e ∈ p.world.trace, e.Undisputed) (k : Removable) :
    p.reports k = p.removals k ∧ ∀ i, i < p.threads.length →
      (p.returned k i → p.recorded k i) ∧
        ((∀ id, k ≠ .token id) → p.recorded k i → p.returned k i) := by
  have hkept := (Calls.tallied_fresh ht).reaches (serve_tallies env) hr
  refine ⟨?_, fun i hi => (Calls.told_of_kept hkept hended hundisputed hi k).2⟩
  exact (World.countP_trace _ hkept.owner fun i hi =>
    (Calls.told_of_kept hkept hended hundisputed hi k).1).symm

/-- Two revocations, two removals of a member and two logouts, each pair after the same lookup. -/
def pairedRemovals : Calls plainEnvironment :=
  Pool.played (serve plainEnvironment) (Calls.fresh plainEnvironment smallTables)
    [.spawn (.login "a" "p"), .finish 0,
      .spawn (.revokeRole ⟨1⟩ ⟨7⟩ (some ⟨9⟩) ⟨1⟩), .spawn (.revokeRole ⟨1⟩ ⟨7⟩ (some ⟨9⟩) ⟨3⟩),
      .spawn (.removeMember ⟨1⟩ ⟨9⟩ ⟨1⟩), .spawn (.removeMember ⟨1⟩ ⟨9⟩ ⟨3⟩),
      .spawn (.logout (plainEnvironment.token 10)), .spawn (.logout (plainEnvironment.token 10)),
      .exec 1, .exec 2, .exec 3, .exec 4, .exec 5, .exec 6,
      .finish 1, .finish 2, .finish 3, .finish 4, .finish 5, .finish 6]

/-- Both calls of each pair tell of the one removal. -/
theorem removals_unbalanced :
    Reaches (serve plainEnvironment) (Calls.fresh plainEnvironment smallTables) pairedRemovals ∧
    pairedRemovals.Ended ∧
    ∀ k ∈ [Removable.assignment ⟨1⟩ ⟨7⟩ (some ⟨9⟩), .membership ⟨1⟩ ⟨9⟩, .token ⟨24⟩],
      pairedRemovals.reports k = 2 ∧ pairedRemovals.removals k = 1 :=
  ⟨Pool.played_reaches _ _ _, by decide +kernel, by decide +kernel⟩

/-- Removals of each kind, twice: the second lookup comes when the first call has committed.
The last call, of a user that does not exist, finds nothing to remove. -/
def removalsInTurn : Calls plainEnvironment :=
  Pool.played (serve plainEnvironment) (Calls.fresh plainEnvironment smallTables)
    [.spawn (.login "a" "p"), .finish 0,
      .spawn (.revokeRole ⟨1⟩ ⟨7⟩ (some ⟨9⟩) ⟨1⟩), .spawn (.revokeRole ⟨1⟩ ⟨7⟩ (some ⟨9⟩) ⟨3⟩),
      .exec 1, .exec 1, .exec 1, .exec 2, .finish 1, .finish 2,
      .spawn (.removeMember ⟨1⟩ ⟨9⟩ ⟨1⟩), .spawn (.removeMember ⟨1⟩ ⟨9⟩ ⟨3⟩),
      .exec 3, .exec 3, .exec 3, .exec 4, .finish 3, .finish 4,
      .spawn (.logout (plainEnvironment.token 10)), .spawn (.logout (plainEnvironment.token 10)),
      .exec 5, .exec 5, .exec 5, .exec 5, .exec 6, .finish 5, .finish 6,
      .spawn (.removePermissionFromRole ⟨7⟩ ⟨11⟩ ⟨1⟩),
      .spawn (.removePermissionFromRole ⟨7⟩ ⟨11⟩ ⟨3⟩),
      .exec 7, .exec 8, .exec 7, .finish 7, .finish 8,
      .spawn (.revokeRole ⟨3⟩ ⟨7⟩ (some ⟨9⟩) ⟨999⟩), .finish 9]

theorem removals_balanced_inTurn :
    removalsInTurn.Ended ∧ (∀ e ∈ removalsInTurn.world.trace, e.Undisputed) ∧
    ∀ k ∈ [Removable.assignment ⟨1⟩ ⟨7⟩ (some ⟨9⟩), .membership ⟨1⟩ ⟨9⟩, .token ⟨24⟩,
        .grant ⟨7⟩ ⟨11⟩],
      removalsInTurn.removals k = 1 ∧ removalsInTurn.reports k = removalsInTurn.removals k := by
  have hended : removalsInTurn.Ended := by decide +kernel
  have hundisputed : ∀ e ∈ removalsInTurn.world.trace, e.Undisputed := by decide +kernel
  have hremovals : ∀ k ∈ [Removable.assignment ⟨1⟩ ⟨7⟩ (some ⟨9⟩), .membership ⟨1⟩ ⟨9⟩,
      .token ⟨24⟩, .grant ⟨7⟩ ⟨11⟩], removalsInTurn.removals k = 1 := by
    decide +kernel
  refine ⟨hended, hundisputed, fun k hk => ⟨hremovals k hk, ?_⟩⟩
  exact (removals_balanced smallTables_ready (Pool.played_reaches _ _ _) hended hundisputed k).1

end SecureIam
