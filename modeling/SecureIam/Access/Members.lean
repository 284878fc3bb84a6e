import SecureIam.Access.ReadPaths

/-!
The three questions about a membership: who is in an organization, where a user is, and whether
one is in the other.
-/
namespace SecureIam
open Lib App OrganizationMembershipRepository
variable {env : Environment} {t : Tables} {p : Calls env} {u o : Uuid}

def Tables.Member (t : Tables) (u o : Uuid) : Prop :=
  ∃ m ∈ t.memberships, m.userId = u ∧ m.organizationId = o

instance (t : Tables) (u o : Uuid) : Decidable (t.Member u o) :=
  inferInstanceAs (Decidable (∃ _ ∈ _, _ ∧ _))

namespace Tables.Schema
variable {τ : Table} (ht : t.Schema)
include ht

/-- A lookup by a key of a row that is there finds this row alone. -/
theorem filter_singleton {k : LockKey} {q : τ.Row → Bool} {r : τ.Row}
    (hq : ∀ r, q r = true → k ∈ τ.keys r) (hr : r ∈ t.rows τ) (hqr : q r = true) :
    (t.rows τ).filter q = [r] := by
  have hmem : r ∈ (t.rows τ).filter q := List.mem_filter.mpr ⟨hr, hqr⟩
  cases ht.filter_key hq with
  | inl hnone => simp [hnone] at hmem
  | inr hone =>
      obtain ⟨r', -, -, hone⟩ := hone
      rw [hone, List.mem_singleton] at hmem
      rw [hone, hmem]

theorem nodup_ids {id : τ.Row → Uuid} (hid : ∀ r, .primary τ (id r) ∈ τ.keys r) :
    ((t.rows τ).map id).Nodup :=
  (ht.nodup τ).map_on fun x hx y hy heq => ht.row_unique hx hy (hid x) (heq ▸ hid y)

/-- A join with a table in which each row of the left one has one key to look up. -/
theorem nodup_keyed_join {ids : List Uuid} (hids : ids.Nodup) {k : Uuid → LockKey}
    {q : Uuid → τ.Row → Bool} (hq : ∀ id r, q id r = true → k id ∈ τ.keys r) :
    (ids.flatMap fun id => ((t.rows τ).filter (q id)).map fun _ => id).Nodup := by
  refine (nodup_join hids _).mpr fun id _ => ?_
  cases ht.filter_key (hq id) with
  | inl hnone => simp [hnone]
  | inr hone =>
      obtain ⟨r, -, -, hone⟩ := hone
      simp [hone]

end Tables.Schema

/-- The rows of the join `users`, `organization_memberships`. -/
def memberRows (o : Uuid) (t : Tables) : List Member :=
  t.users.flatMap fun u =>
    (t.memberships.filter fun m => m.userId = u.id ∧ m.organizationId = o).map fun m =>
      ⟨u.id, u.email, m.joinedAt⟩

/-- The rows of the join `organizations`, `organization_memberships`. -/
def organizationRows (u : Uuid) (t : Tables) : List Organization :=
  t.organizations.flatMap fun o =>
    (t.memberships.filter fun m => m.organizationId = o.id ∧ m.userId = u).map fun _ => o

/-- The answer of `list_members`, which is asked at the step `n` of the run. -/
def memberResponses (env : Environment) (n : Nat) (o : Uuid) (t : Tables) :
    List OrganizationMemberResponse :=
  ((env.scan n (memberRows o t)).insertionSort fun a b => a.joinedAt ≤ b.joinedAt).map fun m =>
    ⟨m.userId, m.email, m.joinedAt⟩

def organizationResponses (env : Environment) (u : Uuid) (t : Tables) :
    List OrganizationResponse :=
  ((organizationRows u t).insertionSort fun a b => env.collate a.name b.name).map fun o =>
    ⟨o.id, o.name, o.createdAt⟩

theorem reads_listMembers (ht : p.tables.Schema) {organization : Organization}
    (h : organization ∈ p.tables.organizations) :
    p.Reads (OrganizationService.listMembers organization.id)
      (memberResponses env (p.world.trace.length + 1) organization.id p.tables) := by
  intro req
  have hrows : p.tables.organizations.filter (·.id = organization.id) = [organization] :=
    ht.filter_singleton (τ := .organizations) (k := .primary .organizations organization.id)
      (fun r hr => by simp [Table.keys, of_decide_eq_true hr]) h (decide_eq_true rfl)
  have hlength : ∀ e, (p.world.trace ++ [e]).length = p.world.trace.length + 1 :=
    fun e => List.length_append
  have hobject : (p.tables.organizations.filter (·.id = organization.id)).map
      (({} : Session).object .organizations) = [organization] := by
    rw [hrows]
    rfl
  simp only [OrganizationService.listMembers, AuthorizationService.requireOrganization,
    OrganizationRepository.getById, Program.bind_def, Program.bind_assoc, App.select, App.issue,
    Program.issue, Program.op_bind, Program.ret_bind, Program.run, World.exec, machine, exec,
    Option.map_some]
  have hview : ({} : Session).view p.world.shared = p.tables := rfl
  rw [hview, hobject]
  simp only [scalarOneOrNone, Program.pure_def, Program.ret_bind, Option.isNone_some,
    Bool.false_eq_true, if_false, getMembersForOrganization, App.issue, Program.issue,
    Program.op_bind, Program.run, World.exec, machine, exec, Option.map_some, hlength]
  exact ⟨_, _, rfl⟩

theorem Calls.Reads.bind_ret {α β : Type} {f : App α} {g : α → App β} {a : α} {b : β}
    (h : p.Reads f a) (hg : g a = .ret b) : p.Reads (f.bind g) b := by
  intro req
  obtain ⟨l, w, hrun⟩ := h req
  refine ⟨l, w, ?_⟩
  rw [Program.run_bind, hrun]
  simp only [Option.bind_some, hg, Program.run]

theorem reads_listOrganizations (p : Calls env) (u : Uuid) :
    p.Reads (OrganizationService.listOrganizationsForUser env u)
      (organizationResponses env u p.tables) :=
  (p.reads_select .organizations fun t =>
    (organizationRows u t).insertionSort fun a b => env.collate a.name b.name).bind_ret rfl

theorem reads_isMember (ht : p.tables.Schema) (u o : Uuid) :
    p.Reads (isMember u o) (decide (p.tables.Member u o)) := by
  refine (p.reads_select .memberships (membershipsOf u o)).bind_ret ?_
  have hmember : p.tables.Member u o ↔ ∃ m, m ∈ membershipsOf u o p.tables := by
    simp [Tables.Member, membershipsOf]
  cases ht.filter_key (τ := .memberships) (k := .membershipOf u o)
    (p := fun m => m.userId = u ∧ m.organizationId = o)
    (fun m hm => by simp [Table.keys, of_decide_eq_true hm]) with
  | inl hnone =>
      have hnone : membershipsOf u o p.tables = [] := hnone
      have hnot : ¬ p.tables.Member u o := by simp [hmember, hnone]
      rw [hnone, decide_eq_false hnot]
      rfl
  | inr hone =>
      obtain ⟨m, -, -, hone⟩ := hone
      have hone : membershipsOf u o p.tables = [m] := hone
      have hyes : p.tables.Member u o := by simp [hmember, hone]
      rw [hone, decide_eq_true hyes]
      rfl

section Rows
variable {n : Nat}

theorem mem_memberResponses {x : OrganizationMemberResponse} :
    x ∈ memberResponses env n o t ↔ ∃ user ∈ t.users, ∃ m ∈ t.memberships,
      (m.userId = user.id ∧ m.organizationId = o) ∧ x = ⟨user.id, user.email, m.joinedAt⟩ := by
  simp only [memberResponses, List.mem_map, List.mem_insertionSort, (env.scan_perm n _).mem_iff,
    memberRows, List.mem_flatMap, List.mem_filter, decide_eq_true_eq]
  constructor
  · intro h
    obtain ⟨y, ⟨user, huser, m, ⟨hm, hmatches⟩, rfl⟩, rfl⟩ := h
    exact ⟨user, huser, m, hm, hmatches, rfl⟩
  · intro h
    obtain ⟨user, huser, m, hm, hmatches, rfl⟩ := h
    exact ⟨_, ⟨user, huser, m, ⟨hm, hmatches⟩, rfl⟩, rfl⟩

theorem mem_organizationResponses {x : OrganizationResponse} :
    x ∈ organizationResponses env u t ↔ ∃ organization ∈ t.organizations, ∃ m ∈ t.memberships,
      (m.organizationId = organization.id ∧ m.userId = u) ∧
        x = ⟨organization.id, organization.name, organization.createdAt⟩ := by
  simp only [organizationResponses, List.mem_map, List.mem_insertionSort, organizationRows,
    List.mem_flatMap, List.mem_filter, decide_eq_true_eq]
  constructor
  · intro h
    obtain ⟨y, ⟨organization, horganization, m, ⟨hm, hmatches⟩, rfl⟩, rfl⟩ := h
    exact ⟨organization, horganization, m, hm, hmatches, rfl⟩
  · intro h
    obtain ⟨organization, horganization, m, hm, hmatches, rfl⟩ := h
    exact ⟨_, ⟨organization, horganization, m, ⟨hm, hmatches⟩, rfl⟩, rfl⟩

/-- A membership refers to a user and an organization that exist. -/
theorem listed_iff (ht : t.Schema) :
    u ∈ (memberResponses env n o t).map (·.userId) ↔ t.Member u o := by
  simp only [List.mem_map, mem_memberResponses]
  constructor
  · intro h
    obtain ⟨x, ⟨user, -, m, hm, ⟨huser, horg⟩, rfl⟩, rfl⟩ := h
    exact ⟨m, hm, huser, horg⟩
  · intro h
    obtain ⟨m, hm, rfl, horg⟩ := h
    have hkey := ht.references .memberships m hm (.primary .users m.userId)
      (by simp [Table.references])
    obtain ⟨user, hmem, hid⟩ : ∃ user ∈ t.users, m.userId = user.id := by
      simpa [Tables.hasKey, Tables.rows, LockKey.table, Table.keys] using hkey
    exact ⟨_, ⟨user, hmem, m, hm, ⟨hid, horg⟩, rfl⟩, hid.symm⟩

theorem belongs_iff (ht : t.Schema) :
    o ∈ (organizationResponses env u t).map (·.id) ↔ t.Member u o := by
  simp only [List.mem_map, mem_organizationResponses]
  constructor
  · intro h
    obtain ⟨x, ⟨organization, -, m, hm, ⟨horg, huser⟩, rfl⟩, rfl⟩ := h
    exact ⟨m, hm, huser, horg⟩
  · intro h
    obtain ⟨m, hm, huser, rfl⟩ := h
    have hkey := ht.references .memberships m hm (.primary .organizations m.organizationId)
      (by simp [Table.references])
    obtain ⟨organization, hmem, hid⟩ : ∃ organization ∈ t.organizations,
        m.organizationId = organization.id := by
      simpa [Tables.hasKey, Tables.rows, LockKey.table, Table.keys] using hkey
    exact ⟨_, ⟨organization, hmem, m, hm, ⟨hid, huser⟩, rfl⟩, hid.symm⟩

theorem nodup_members (ht : t.Schema) : ((memberResponses env n o t).map (·.userId)).Nodup := by
  have hids : (t.users.map (·.id)).Nodup :=
    ht.nodup_ids (τ := .users) fun _ => by simp [Table.keys]
  have hperm : ((memberResponses env n o t).map (·.userId)).Perm
      ((memberRows o t).map (·.userId)) := by
    rw [memberResponses, List.map_map]
    exact (((List.perm_insertionSort _ _).trans (env.scan_perm n _))).map _
  have hjoin : (memberRows o t).map (·.userId) = (t.users.map (·.id)).flatMap fun id =>
      (t.memberships.filter fun m => m.userId = id ∧ m.organizationId = o).map fun _ => id := by
    simp [memberRows, List.map_flatMap, List.flatMap_map, Function.comp_def]
  rw [hperm.nodup_iff, hjoin]
  exact ht.nodup_keyed_join (τ := .memberships) (k := fun id => .membershipOf id o) hids
    fun id m hm => by simp [Table.keys, of_decide_eq_true hm]

theorem nodup_organizations (ht : t.Schema) :
    ((organizationResponses env u t).map (·.id)).Nodup := by
  have hids : (t.organizations.map (·.id)).Nodup :=
    ht.nodup_ids (τ := .organizations) fun _ => by simp [Table.keys]
  have hperm : ((organizationResponses env u t).map (·.id)).Perm
      ((organizationRows u t).map (·.id)) := by
    rw [organizationResponses, List.map_map]
    exact (List.perm_insertionSort _ _).map _
  have hjoin : (organizationRows u t).map (·.id) = (t.organizations.map (·.id)).flatMap fun id =>
      (t.memberships.filter fun m => m.organizationId = id ∧ m.userId = u).map fun _ => id := by
    simp [organizationRows, List.map_flatMap, List.flatMap_map]
  rw [hperm.nodup_iff, hjoin]
  exact ht.nodup_keyed_join (τ := .memberships) (k := fun id => .membershipOf u id) hids
    fun id m hm => by simp [Table.keys, of_decide_eq_true hm]

theorem ordered_members :
    (memberResponses env n o t).Pairwise fun a b => a.joinedAt ≤ b.joinedAt := by
  have htotal : Std.Total fun a b : Member => a.joinedAt ≤ b.joinedAt :=
    ⟨fun a b => le_total a.joinedAt b.joinedAt⟩
  have htrans : IsTrans Member fun a b => a.joinedAt ≤ b.joinedAt :=
    ⟨fun _ _ _ hab hbc => le_trans hab hbc⟩
  exact List.pairwise_map.mpr (List.pairwise_insertionSort _ _)

theorem ordered_organizations :
    (organizationResponses env u t).Pairwise fun a b => env.collate a.name b.name = true := by
  have htotal : Std.Total fun a b : Organization => env.collate a.name b.name = true :=
    ⟨fun a b => by simpa using env.collate_total a.name b.name⟩
  have htrans : IsTrans Organization fun a b => env.collate a.name b.name = true :=
    ⟨fun _ _ _ hab hbc => env.collate_trans _ _ _ hab hbc⟩
  exact List.pairwise_map.mpr (List.pairwise_insertionSort _ _)

end Rows

/-- The three answers about a user and an organization agree, and each listing has no repetitions
and is in its order. -/
structure MembershipsAgree (env : Environment) (t : Tables) (u o : Uuid)
    (members : List OrganizationMemberResponse) (organizations : List OrganizationResponse)
    (member : Bool) : Prop where
  asked : member = true ↔ t.Member u o
  entries : ∀ x, x ∈ members ↔ ∃ user ∈ t.users, ∃ m ∈ t.memberships,
    (m.userId = user.id ∧ m.organizationId = o) ∧ x = ⟨user.id, user.email, m.joinedAt⟩
  listed : u ∈ members.map (·.userId) ↔ member = true
  belongs : o ∈ organizations.map (·.id) ↔ member = true
  membersOnce : (members.map (·.userId)).Nodup
  membersOrdered : members.Pairwise fun a b => a.joinedAt ≤ b.joinedAt
  organizationsOnce : (organizations.map (·.id)).Nodup
  organizationsOrdered : organizations.Pairwise fun a b => env.collate a.name b.name = true

/-- In any state that the calls may lead to, whoever asks and whatever else is going on. -/
theorem memberships_agree (hp : p.Reachable) {organization : Organization}
    (h : organization ∈ p.tables.organizations) (u : Uuid) :
    ∃ members organizations member,
      p.Reads (OrganizationService.listMembers organization.id) members ∧
      p.Reads (OrganizationService.listOrganizationsForUser env u) organizations ∧
      p.Reads (isMember u organization.id) member ∧
      MembershipsAgree env p.tables u organization.id members organizations member := by
  have ht : p.tables.Schema := hp.sound.inv.schema
  refine ⟨_, _, _, reads_listMembers ht h, reads_listOrganizations p u,
    reads_isMember ht u organization.id, ?_⟩
  refine ⟨decide_eq_true_eq.to_iff, fun x => mem_memberResponses, ?_, ?_, nodup_members ht, ?_,
    nodup_organizations ht, ?_⟩
  · rw [listed_iff ht, decide_eq_true_eq]
  · rw [belongs_iff ht, decide_eq_true_eq]
  · exact ordered_members
  · exact ordered_organizations

theorem memberships_agree_assignedGlobally :
    ∃ organization ∈ assignedGlobally.tables.organizations,
      assignedGlobally.tables.Member ⟨2⟩ organization.id ∧ ∃ members organizations member,
      assignedGlobally.Reads (OrganizationService.listMembers organization.id) members ∧
      assignedGlobally.Reads (OrganizationService.listOrganizationsForUser plainEnvironment ⟨2⟩)
        organizations ∧
      assignedGlobally.Reads (isMember ⟨2⟩ organization.id) member ∧
      MembershipsAgree plainEnvironment assignedGlobally.tables ⟨2⟩ organization.id members
        organizations member := by
  have hexists : ∃ organization ∈ assignedGlobally.tables.organizations,
      assignedGlobally.tables.Member ⟨2⟩ organization.id := by decide +kernel
  obtain ⟨organization, h, hmember⟩ := hexists
  exact ⟨organization, h, hmember, memberships_agree (Calls.reachable_after _ _) h ⟨2⟩⟩

end SecureIam
