import SecureIam.Access.Recorded

/-!
The eight calls tell what they do: a change first, then its event, and the event says what the
change was.
-/
namespace SecureIam
open Lib App Program
variable {ρ α β : Type} {env : Environment} {t t₀ : Tables} {i : Nat} {req : ρ} {l l' : Session}
  {u w w' : History env ρ} {v : Write} {new new' : List (Entry (machine env) ρ)}

theorem honest_of_ne {es : List (Entry (machine env) ρ)} (hv : ∀ x, v ≠ .insert .auditLogs x) :
    Honest es v := fun x hx => absurd hx (hv x)

section Reads
variable {L : Licence env ρ} {R : α → List (Entry (machine env) ρ) → Prop}

theorem wp_recounts_first {p : App β} {f : β → App α} (hp : Uses [] [] p) (hl : l.pending = [])
    (hf : ∀ b l w, l.pending = [] →
      (ledger env t₀ L).wp i req (Extends w i fun _ => Recounts) (f b) l w) :
    (ledger env t₀ L).wp i req (Extends u i fun _ => Recounts) (p.bind f) l u :=
  wp_extends_bind (wp_still (within_reads hp) hl) fun b _ l' w hl' _ hstill =>
    (hf b l' w hl').mono fun _ _ _ _ _ h => h.mono fun _ _ hnew' => hstill.recounts.append hnew'

theorem wp_replied {p : App β} {f : β → α}
    (hp : (ledger env t₀ L).wp i req (Extends u i fun _ => Recounts) p l u) :
    (ledger env t₀ L).wp i req (Extends u i fun _ => Recounts) (p.bind fun b => .ret (f b)) l u :=
  wp_extends_bind hp fun _ _ _ _ hl' _ hnew =>
    wp_extends_ret hl' (by rwa [List.append_nil])

end Reads

section Additions
variable {τ : Table} {d : τ.Draft} {err : Error} {g : Error → App α} {a : α → AuditRecord}
  {f : α → β}

theorem wp_recounted_handle {p : App α} (hg : ∀ e, ∃ e', g e = .raise e')
    (hp : (ledger env t₀ (honesty env ρ)).wp i req (Extends u i fun b => Owes (a b)) p l u) :
    (ledger env t₀ (honesty env ρ)).wp i req (Extends u i fun _ => Recounts)
      ((p.handle g).bind fun b => (AuditLogRepository.record (a b)).bind fun _ => .ret (f b)) l
        u := by
  refine wp_recounted (wp_extends_handle (fun e l' w hl' => ?_) hp)
  obtain ⟨e', he'⟩ := hg e
  exact he' ▸ wp_extends_raise hl'

/-- A row that is added, read back, and told. -/
theorem wp_added {k : τ.Row → Uuid} {g : Error → App τ.Row} {a : τ.Row → AuditRecord}
    {f : τ.Row → β} (ht₀ : t₀.Ready env) (hτ : τ ≠ .auditLogs) (hfixed : ∀ y : τ.Row, τ.fixed y = y)
    (hkey : ∀ id now, .primary τ (k (d.row id now)) ∈ τ.keys (d.row id now))
    (hg : ∀ e, ∃ e', g e = .raise e') (hl : l.pending = [])
    (howes : ∀ id now (new : List (Entry (machine env) ρ)),
      Carried (.insert τ (d.row id now)) new → Owes (a (d.row id now)) new) :
    (ledger env t₀ (honesty env ρ)).wp i req (Extends u i fun _ => Recounts)
      ((((exceptIntegrityError ((App.insert τ d).bind fun row => App.commit.bind fun _ =>
        .ret row) err).bind fun row => App.refresh τ (k row)).handle g).bind fun row =>
          (AuditLogRepository.record (a row)).bind fun _ => .ret (f row)) l u := by
  have hmay : ∀ id now, Honest (u.own i) (.insert τ (d.row id now)) := fun id now =>
    honest_of_ne fun x hx => hτ (Write.insert.inj hx).1
  refine wp_recounted_handle hg (wp_extends_bind (wp_extends_except (wp_inserted (g := id) hl hmay))
    fun row new l' w hl' hown hinserted => ?_)
  obtain ⟨id, now, rfl, hinserted⟩ := hinserted
  refine (wp_refreshed ht₀ hfixed hinserted (hown ▸ List.subset_append_right _ _) (hkey id now)
    hl').mono fun out l'' w' _ _ h => h.mono fun row new' hrow => ?_
  obtain ⟨rfl, hstill⟩ := hrow
  exact howes id now _ (hinserted.carried.append hstill)

end Additions

section Told
variable {τ : Table} {row : τ.Row} {a : AuditRecord}

/-- An insertion that the journal shows, and the event that tells it. -/
theorem Carried.owes_insert {β : Type} [DecidableEq β] {j : Journal → Finset β} {f : τ.Row → β}
    {k : LockKey} (h : Carried (.insert τ row) new)
    (hj : ∀ t : Tables, j t.journal = ((t.rows τ).map f).toFinset) (hk : k ∈ τ.keys row)
    (hf : ∀ y : τ.Row, f y = f row → k ∈ τ.keys y)
    (htold : ∀ (t : Tables) id now, ((Write.insert τ row).apply t).journal =
      t.journal.replay ((AuditLogRepository.draft a).row id now)) : Owes a new := by
  refine h.owes (fun t hok heq => ?_) fun t id now _ _ => htold t id now
  have hmem : f row ∈ j ((Write.insert τ row).apply t).journal := by
    rw [hj, List.mem_toFinset]
    refine List.mem_map_of_mem ?_
    rw [Write.apply, Tables.rows_insert_self]
    exact List.mem_append_right _ (List.mem_singleton_self row)
  rw [heq, hj, List.mem_toFinset] at hmem
  obtain ⟨y, hy, hfy⟩ := List.mem_map.mp hmem
  exact hok.adds k hk (Tables.hasKey_iff.mpr ⟨τ, y, hy, hf y hfy⟩)

end Told

section Removals
variable {a : AuditRecord}

theorem filter_ne_of_not_mem [DecidableEq α] {x : α} {xs : List α} (h : x ∉ xs) :
    xs.filter (· ≠ x) = xs := by
  refine List.filter_eq_self.mpr fun y hy => ?_
  exact decide_eq_true fun heq => h (heq ▸ hy)

/-- The event tells whatever the write changes. -/
structure Write.ToldBy (v : Write) (a : AuditRecord) : Prop where
  other : ∀ x, v ≠ .insert .auditLogs x
  told : ∀ t : Tables, t.Schema → (v.apply t).journal ≠ t.journal → ∀ id now,
    (v.apply t).journal = t.journal.replay ((AuditLogRepository.draft a).row id now)

/-- What has been removed, if anything has. -/
def OwesIf (a : AuditRecord) : Bool → List (Entry (machine env) ρ) → Prop
  | true, es => Owes a es
  | false, es => Still es

theorem Still.owes (h : Still new) (ha : a.action ∉ additions) : Owes a new :=
  ⟨fun e he halters => absurd halters (h e he), fun hadd => absurd hadd ha⟩

/-- A DELETE and its commit. -/
theorem wp_removedRow {o : Stmt} {f : o.Res → Bool} (hl : l.pending = [])
    (ha : a.action ∉ additions) (hends : o.ends = false)
    (hdel : ∀ w₁ r w₂ l₂, (ledger env t₀ (honesty env ρ)).Later i l u w₁ →
      w₁.exec i req o l = some (r, w₂, l₂) →
        l₂.pending = [] ∨ f r = true ∧ ∃ v, l₂.pending = [v] ∧ v.ToldBy a) :
    (ledger env t₀ (honesty env ρ)).wp i req (Extends u i (OwesIf a))
      ((App.issue o).bind fun r => App.commit.bind fun _ => .ret (f r)) l u := by
  refine wp_ledger (Abides.of_nil hl) fun w₁ r w₂ l₂ hlater hexec _ _ => ?_
  have hself := World.own_exec_self hexec
  rw [hlater.1.own] at hself
  obtain ⟨g, hg, hshared, -⟩ := World.exec_step hexec
  have hstate : w₂.shared.state = w₁.shared.state := by
    rw [hshared]
    exact ((exec_effect hg).grows hends).1
  have hfirst : Still [(⟨w₁.trace.length, i, req, o, r, w₁.shared, w₂.shared⟩ :
      Entry (machine env) ρ)] := still_singleton hstate
  cases hdel w₁ r w₂ l₂ hlater hexec with
  | inl hpending =>
      refine (wp_still (p := App.commit.bind fun _ => .ret (f r)) (within_commit (f r))
        hpending).mono fun out l' w' _ _ h => Extends.prepend hself (h.mono fun b new hnew => ?_)
      cases b with
      | true => exact (hfirst.append hnew).owes ha
      | false => exact hfirst.append hnew
  | inr hwrites =>
      obtain ⟨htrue, v, hpending, htold⟩ := hwrites
      refine wp_publish hpending (honest_of_ne htold.other) fun w₃ l₃ e hl₃ hown he => ?_
      intro w₄ hlater'
      rw [← hlater'.1.own, hself, List.append_assoc] at hown
      refine ⟨hl₃, _, hown, fun b hb => ?_⟩
      cases hb
      rw [htrue]
      refine ⟨fun e' he' halters id now => ?_, fun hadd => absurd hadd ha⟩
      cases List.mem_append.mp he' with
      | inl he' => exact absurd halters (hfirst e' he')
      | inr he' =>
          rw [List.mem_singleton.mp he'] at halters ⊢
          rw [Lib.Entry.Alters, he.state] at halters
          rw [Lib.Entry.ToldBy, he.state]
          exact htold.told _ he.schema halters id now

theorem OwesIf.after {b : Bool} (h : OwesIf a b new') (hstill : Still new) :
    OwesIf a b (new ++ new') := by
  cases b with
  | false => exact hstill.append h
  | true =>
      refine ⟨fun e he halters => ?_, fun hadd => ?_⟩
      · exact (List.mem_append.mp he).elim (fun he => absurd halters (hstill e he)) fun he =>
          h.told e he halters
      · obtain ⟨e, he, hrest⟩ := h.honest hadd
        exact ⟨e, List.mem_append_right _ he, hrest⟩

theorem pending_of_deleted {τ : Table} {p : τ.Row → Bool} {d : τ.Row → Write} {m n c : Nat}
    {g g' : Database}
    (h : writeRow n ((((l.view g).rows τ).find? p).map d) g (l.touch m) = some (c, g', l')) :
    l'.pending = l.pending ∧ c = 0 ∨ ∃ y ∈ (l.view g).rows τ, p y = true ∧ c = 1 ∧
      l'.pending = l.pending ++ [d y] := by
  cases writeRow_eq_some.mp h with
  | inl h =>
      obtain ⟨-, rfl, -, rfl⟩ := h
      exact .inl ⟨rfl, rfl⟩
  | inr h =>
      obtain ⟨v, hv, rfl, -, rfl⟩ := h
      obtain ⟨y, hy, rfl⟩ := Option.map_eq_some_iff.mp hv
      refine .inr ⟨y, List.mem_of_find?_eq_some hy, List.find?_some hy, rfl, ?_⟩
      exact Session.push_pending _ _

/-- A DELETE by `id` takes a row with the `id` of the one that was read. -/
theorem pending_of_deletedById {τ : Table} {x : τ.Row} {k : τ.Row → Uuid} {d : τ.Row → Write}
    {m n c : Nat} {g g' : Database} (hk : ∀ y, .primary τ (k y) ∈ τ.keys y)
    (h : writeRow n ((((l.view g).rows τ).find? (k · = k x)).map d) g (l.touch m) =
      some (c, g', l')) :
    l'.pending = l.pending ∨ ∃ y ∈ (l.view g).rows τ, l'.pending = l.pending ++ [d y] ∧
      ∃ id, .primary τ id ∈ τ.keys x ∧ .primary τ id ∈ τ.keys y := by
  refine (pending_of_deleted h).imp And.left fun hfound => ?_
  obtain ⟨y, hy, hid, -, hpending⟩ := hfound
  rw [decide_eq_true_eq] at hid
  exact ⟨y, hy, hpending, k x, hk x, hid ▸ hk y⟩

theorem wp_removePermission {x y : Uuid} (hl : l.pending = []) (ha : a.action ∉ additions)
    (hd : (Write.deleteRolePermission ⟨x, y⟩).ToldBy a) :
    (ledger env t₀ (honesty env ρ)).wp i req (Extends u i (OwesIf a))
      (RoleRepository.removePermission x y) l u := by
  refine wp_removedRow (f := fun n => decide (0 < n)) hl ha rfl fun w₁ n w₂ l₂ _ hexec => ?_
  obtain ⟨g, hg, -, -⟩ := World.exec_step hexec
  refine (pending_of_deleted (τ := .rolePermissions) hg).imp (fun h => h.1.trans hl)
    fun hfound => ?_
  obtain ⟨rp, -, hfound, rfl, hpending⟩ := hfound
  obtain ⟨rfl, rfl⟩ : rp.roleId = x ∧ rp.permissionId = y := by simpa using hfound
  rw [hl, List.nil_append] at hpending
  exact ⟨decide_eq_true Nat.one_pos, _, hpending, hd⟩

/-- `scalar_one_or_none()`, and a DELETE of the row that was found. -/
theorem wp_removedFound {τ : Table} {q : Tables → List τ.Row} {d : τ.Row → Write}
    {s : τ.Row → Stmt} {k : Option τ.Row → App Bool} (ht₀ : t₀.Ready env)
    (hl : l.pending = []) (ha : a.action ∉ additions) (hfixed : ∀ x, τ.fixed x = x)
    (hobject : ∀ l x, Session.object l τ x = x) (hq : ∀ t, ∀ x ∈ q t, x ∈ t.rows τ ∧ (d x).ToldBy a)
    (hnone : k none = .ret false)
    (hsome : ∀ x, k (some x) = (App.issue (s x)).bind fun _ => App.commit.bind fun _ => .ret true)
    (hends : ∀ x, (s x).ends = false)
    (hdel : ∀ {x n i r g g' l l'}, exec env n i (s x) g l = some (r, g', l') →
      l'.pending = l.pending ∨ ∃ y ∈ (l.view g).rows τ, l'.pending = l.pending ++ [d y] ∧
        ∃ id, .primary τ id ∈ τ.keys x ∧ .primary τ id ∈ τ.keys y) :
    (ledger env t₀ (honesty env ρ)).wp i req (Extends u i (OwesIf a))
      ((App.select τ q).bind fun rows => (scalarOneOrNone rows).bind k) l u := by
  refine wp_ledger (Abides.of_nil hl) fun v rows w l' hv hexec _ _ => ?_
  obtain ⟨hl', hstate⟩ := exec_still (o := .select τ q) (fun _ hv => hv) hl hexec
  have hown := World.own_exec_self hexec
  rw [hv.1.own] at hown
  have hfirst : Still [(⟨v.trace.length, i, req, .select τ q, rows, v.shared, w.shared⟩ :
      Entry (machine env) ρ)] := still_singleton hstate
  obtain ⟨g, hg, -, -⟩ := World.exec_step hexec
  obtain ⟨hrows, -, -⟩ := exec_select hg
  cases rows with
  | nil =>
      change (ledger env t₀ _).wp i req _ (k none) l' w
      rw [hnone]
      intro w' hlater
      refine ⟨hl', _, hlater.1.own.trans hown, fun b hb => ?_⟩
      cases hb
      exact hfirst
  | cons x rest =>
      cases rest with
      | cons _ _ => exact fun w' hlater => extends_error hl' (hlater.1.own.trans hown)
      | nil =>
          have hx : x ∈ q (l.view v.shared) := by
            have hmem : x ∈ [x] := List.mem_singleton_self x
            rw [hrows, List.map_congr_left fun y _ => hobject l y, List.map_id'] at hmem
            exact hmem
          have hborn : Born t₀ v τ x := born_of_view hv.2.1.2 hv.2.2.2 (hq _ x hx).1
          change (ledger env t₀ _).wp i req _ (k (some x)) l' w
          rw [hsome]
          refine (wp_removedRow (f := fun _ => true) hl' ha (hends x)
            fun w₁ r w₂ l₂ hlater hexec₂ => ?_).mono fun _ _ _ _ _ h =>
              Extends.prepend hown (h.mono fun b new hnew => hnew.after hfirst)
          obtain ⟨g₂, hg₂, -, -⟩ := World.exec_step hexec₂
          refine (hdel hg₂).imp (fun hpending => hpending.trans hl') fun hfound => ?_
          obtain ⟨y, hy, hpending, id, hxid, hyid⟩ := hfound
          have htrace : v.trace ⊆ w₁.trace := fun e he =>
            interference_trace hlater.1 (subset_trace_exec hexec he)
          have hsame := hborn.found_again ht₀ htrace hlater.2.1 hlater.2.2 hy hxid hyid
          rw [hfixed, hfixed] at hsame
          subst hsame
          rw [hl', List.nil_append] at hpending
          exact ⟨rfl, _, hpending, (hq _ y hx).2⟩

/-- A removal, and its event if there was anything to remove. -/
theorem wp_removedTold {p : App Bool} {k : Bool → App Bool}
    (hp : (ledger env t₀ (honesty env ρ)).wp i req (Extends u i (OwesIf a)) p l u)
    (hfalse : k false = .ret false)
    (htrue : k true = (AuditLogRepository.record a).bind fun _ => .ret true) :
    (ledger env t₀ (honesty env ρ)).wp i req (Extends u i fun _ => Recounts) (p.bind k) l u := by
  refine wp_extends_bind hp fun b new l' w hl' hown howes => ?_
  cases b with
  | false =>
      rw [hfalse]
      exact wp_extends_ret hl' (by simpa using howes.recounts)
  | true =>
      rw [htrue]
      exact wp_tells hl' hown howes

end Removals

section Services
open AuthorizationService OrganizationService

theorem createRole_recounts (ht₀ : t₀.Ready env) (n : String) (d : Option String)
    (o : Option Uuid) (actor : Uuid) (hl : l.pending = []) :
    (ledger env t₀ (honesty env ρ)).wp i req (Extends u i fun _ => Recounts)
      (AuthorizationService.createRole n d o actor) l u := by
  refine wp_recounts_first (requireOrganization_uses o) hl fun _ l' w hl' => ?_
  refine wp_added (τ := .roles) (d := RoleRepository.draft n d o) (k := Role.id) ht₀ (by decide)
    (fun _ => rfl) (fun _ _ => List.mem_cons_self) (fun e => ?_) hl' fun id now new h => ?_
  · split
    all_goals exact ⟨_, rfl⟩
  · refine h.owes_insert (j := Journal.roles) (fun _ => rfl) List.mem_cons_self
      (fun y hy => ?_) fun t id now => ?_
    · simp only [Prod.mk.injEq] at hy
      simp [Table.keys, hy]
    · simp only [Tables.journal, Write.apply, Tables.insert, toFinset_map_append]
      rfl

theorem assignRole_recounts (ht₀ : t₀.Ready env) (x y : Uuid) (o : Option Uuid) (actor : Uuid)
    (hl : l.pending = []) :
    (ledger env t₀ (honesty env ρ)).wp i req (Extends u i fun _ => Recounts)
      (AuthorizationService.assignRole x y o actor) l u := by
  refine wp_recounts_first (uses_selectOne _) hl fun role l' w hl' => ?_
  split
  · exact wp_extends_raise hl'
  · split
    · exact wp_extends_raise hl'
    · refine wp_recounts_first (requireMember_uses x o) hl' fun _ l'' w' hl'' => ?_
      refine wp_added (τ := .userRoles) (d := UserRoleRepository.draft x y o) (k := UserRole.id) ht₀
        (by decide) (fun _ => rfl) (fun _ _ => List.mem_cons_self) (fun e => ?_) hl''
        fun id now new h => ?_
      · split
        all_goals exact ⟨_, rfl⟩
      · refine h.owes_insert (j := Journal.userRoles) (k := .assignment x y o) (fun _ => rfl)
          (by simp [Table.keys, UserRoleRepository.draft]) (fun ur hur => ?_) fun t id now => ?_
        · simp only [UserRole.entry, Prod.mk.injEq] at hur
          simp [Table.keys, hur, UserRoleRepository.draft]
        · simp only [Tables.journal, Write.apply, Tables.insert, toFinset_map_append]
          rfl

theorem assignPermissionToRole_recounts (x y actor : Uuid) (hl : l.pending = []) :
    (ledger env t₀ (honesty env ρ)).wp i req (Extends u i fun _ => Recounts)
      (AuthorizationService.assignPermissionToRole x y actor) l u := by
  refine wp_recounts_first (uses_selectOne _) hl fun role l' w hl' => ?_
  split
  · exact wp_extends_raise hl'
  · refine wp_recounts_first (uses_selectOne _) hl' fun permission l'' w' hl'' => ?_
    split
    · exact wp_extends_raise hl''
    · refine wp_recounted_handle (fun e => ?_) ?_
      · split
        all_goals exact ⟨_, rfl⟩
      · refine (wp_extends_except (wp_inserted (τ := .rolePermissions)
          (d := RoleRepository.permissionDraft x y) (g := fun _ => ()) hl'' fun _ _ =>
            honest_of_ne fun _ hx => by cases hx)).mono fun _ _ _ _ _ h => h.mono fun _ new h => ?_
        obtain ⟨id, now, -, hinserted⟩ := h
        refine hinserted.carried.owes_insert (j := Journal.rolePermissions)
          (k := .rolePermission x y) (fun _ => rfl)
          (by simp [Table.keys, RoleRepository.permissionDraft]) (fun rp hrp => ?_)
          fun t id now => ?_
        · simp only [RolePermission.entry, Prod.mk.injEq] at hrp
          simp [Table.keys, hrp, RoleRepository.permissionDraft]
        · simp only [Tables.journal, Write.apply, Tables.insert, toFinset_map_append]
          rfl

theorem createOrganization_recounts (ht₀ : t₀.Ready env) (n : String) (actor : Uuid)
    (hl : l.pending = []) :
    (ledger env t₀ (honesty env ρ)).wp i req (Extends u i fun _ => Recounts)
      (OrganizationService.createOrganization n actor) l u := by
  refine wp_added (τ := .organizations) (d := OrganizationRepository.draft n) (k := Organization.id)
    ht₀ (by decide) (fun _ => rfl) (fun _ _ => List.mem_cons_self) (fun e => ?_) hl
    fun id now new h => ?_
  · split
    all_goals exact ⟨_, rfl⟩
  · refine h.owes_insert (j := Journal.organizations) (fun _ => rfl) List.mem_cons_self
      (fun y hy => ?_) fun t id now => ?_
    · simp only [Prod.mk.injEq] at hy
      simp [Table.keys, hy]
    · simp only [Tables.journal, Write.apply, Tables.insert, toFinset_map_append]
      rfl

theorem addMember_recounts (ht₀ : t₀.Ready env) (x o actor : Uuid) (hl : l.pending = []) :
    (ledger env t₀ (honesty env ρ)).wp i req (Extends u i fun _ => Recounts)
      (OrganizationService.addMember x o actor) l u := by
  refine wp_recounts_first (uses_selectOne _) hl fun user l' w hl' => ?_
  split
  · exact wp_extends_raise hl'
  · refine wp_recounts_first (requireOrganization_uses _) hl' fun _ l'' w' hl'' => ?_
    refine wp_added (τ := .memberships) (d := OrganizationMembershipRepository.draft x o)
      (k := OrganizationMembership.id) ht₀ (by decide) (fun _ => rfl)
      (fun _ _ => List.mem_cons_self) (fun e => ?_) hl'' fun id now new h => ?_
    · split
      all_goals exact ⟨_, rfl⟩
    · refine h.owes_insert (j := Journal.memberships) (k := .membershipOf x o) (fun _ => rfl)
        (by simp [Table.keys, OrganizationMembershipRepository.draft]) (fun m hm => ?_)
        fun t id now => ?_
      · simp only [OrganizationMembership.entry, Prod.mk.injEq] at hm
        simp [Table.keys, hm, OrganizationMembershipRepository.draft]
      · simp only [Tables.journal, Write.apply, Tables.insert, toFinset_map_append]
        rfl

theorem deleteUserRole_told {ur : UserRole} {x y : Uuid} {o : Option Uuid} (h : ur.Matches x y o)
    (actor : Uuid) : (Write.deleteUserRole ur).ToldBy (roleEvent .roleRevoked x y o actor) where
  other _ hx := by cases hx
  told t ht halters id now := by
    have hur : ur ∈ t.userRoles := by
      by_contra hur
      refine halters (congrArg Tables.journal ?_)
      rw [Write.apply, filter_ne_of_not_mem hur]
    simp only [Tables.journal, Write.apply]
    rw [toFinset_map_filter (assignment_unique ht hur), UserRole.entry, h.1, h.2.1, h.2.2]
    rfl

theorem deleteRolePermission_told {x y : Uuid} (o : Option Uuid) (actor : Uuid) :
    (Write.deleteRolePermission ⟨x, y⟩).ToldBy
      (permissionEvent .permissionRemovedFromRole x y o actor) where
  other _ hx := by cases hx
  told t ht halters id now := by
    have hrp : ⟨x, y⟩ ∈ t.rolePermissions := by
      by_contra hrp
      refine halters (congrArg Tables.journal ?_)
      rw [Write.apply, filter_ne_of_not_mem hrp]
    simp only [Tables.journal, Write.apply]
    rw [toFinset_map_filter (grant_unique ht hrp), RolePermission.entry]
    rfl

theorem deleteMembership_told {m : OrganizationMembership} {x o : Uuid} (hx : m.userId = x)
    (ho : m.organizationId = o) (actor : Uuid) : (Write.deleteMembership m).ToldBy
      (memberEvent .organizationMemberRemoved x o actor) where
  other _ hx := by cases hx
  told t ht halters id now := by
    have hm : m ∈ t.memberships := by
      by_contra hm
      refine halters (congrArg Tables.journal ?_)
      rw [Write.apply, filter_ne_of_not_mem hm]
    simp only [Tables.journal, Write.apply]
    rw [toFinset_map_filter (membership_unique ht hm), OrganizationMembership.entry, hx, ho]
    rfl

theorem revokeRole_recounts (ht₀ : t₀.Ready env) (x y : Uuid) (o : Option Uuid) (actor : Uuid)
    (hl : l.pending = []) :
    (ledger env t₀ (honesty env ρ)).wp i req (Extends u i fun _ => Recounts)
      (AuthorizationService.revokeRole x y o actor) l u := by
  have hother : AuditAction.roleRevoked ∉ additions := by decide
  refine wp_removedTold (a := roleEvent .roleRevoked x y o actor) ?_ rfl rfl
  refine wp_removedFound (τ := .userRoles) (d := .deleteUserRole)
    (s := fun ur => .deleteUserRole ur.id) ht₀ hl hother (fun _ => rfl) (fun _ _ => rfl)
    (fun t ur hur => ?_) ?_ (fun _ => rfl) (fun _ => rfl) fun hexec => ?_
  · rw [List.mem_filter, decide_eq_true_eq] at hur
    exact ⟨hur.1, deleteUserRole_told hur.2 actor⟩
  · rfl
  · exact pending_of_deletedById (τ := .userRoles) (k := UserRole.id)
      (fun _ => List.mem_cons_self) hexec

theorem removePermissionFromRole_recounts (x y actor : Uuid) (hl : l.pending = []) :
    (ledger env t₀ (honesty env ρ)).wp i req (Extends u i fun _ => Recounts)
      (AuthorizationService.removePermissionFromRole x y actor) l u := by
  refine wp_recounts_first (uses_selectOne _) hl fun role l' w hl' => ?_
  cases role with
  | none => exact wp_extends_raise hl'
  | some role =>
      have hother : AuditAction.permissionRemovedFromRole ∉ additions := by decide
      exact wp_removedTold (wp_removePermission hl' hother
        (deleteRolePermission_told role.organizationId actor)) rfl rfl

theorem removeMember_recounts (ht₀ : t₀.Ready env) (x o actor : Uuid) (hl : l.pending = []) :
    (ledger env t₀ (honesty env ρ)).wp i req (Extends u i fun _ => Recounts)
      (OrganizationService.removeMember x o actor) l u := by
  have hother : AuditAction.organizationMemberRemoved ∉ additions := by decide
  refine wp_removedTold (a := memberEvent .organizationMemberRemoved x o actor) ?_ rfl rfl
  refine wp_removedFound (τ := .memberships) (d := .deleteMembership)
    (s := fun m => .deleteMembership m.id) ht₀ hl hother (fun _ => rfl) (fun _ _ => rfl)
    (fun t m hm => ?_) ?_ (fun _ => rfl) (fun _ => rfl) fun hexec => ?_
  · simp only [OrganizationMembershipRepository.membershipsOf, List.mem_filter,
      decide_eq_true_eq] at hm
    exact ⟨hm.1, deleteMembership_told hm.2.1 hm.2.2 actor⟩
  · rfl
  · exact pending_of_deletedById (τ := .memberships) (k := OrganizationMembership.id)
      (fun _ => List.mem_cons_self) hexec

/-- A call that succeeds has told what it has changed. -/
theorem Administration.recounts (ht₀ : t₀.Ready env) (a : Administration) (hl : l.pending = []) :
    (ledger env t₀ (honesty env ρ)).wp i req (Extends u i fun _ => Recounts)
      (call env a.request) l u := by
  cases a with
  | createRole n d o actor => exact wp_replied (createRole_recounts ht₀ n d o actor hl)
  | assignRole x y o actor => exact wp_replied (assignRole_recounts ht₀ x y o actor hl)
  | revokeRole x y o actor => exact wp_replied (revokeRole_recounts ht₀ x y o actor hl)
  | assignPermissionToRole x y actor =>
      exact wp_replied (assignPermissionToRole_recounts x y actor hl)
  | removePermissionFromRole x y actor =>
      exact wp_replied (removePermissionFromRole_recounts x y actor hl)
  | createOrganization n actor => exact wp_replied (createOrganization_recounts ht₀ n actor hl)
  | addMember x o actor => exact wp_replied (addMember_recounts ht₀ x o actor hl)
  | removeMember x o actor => exact wp_replied (removeMember_recounts ht₀ x o actor hl)

end Services

end SecureIam
