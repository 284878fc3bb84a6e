import SecureIam.Api.Mediation

/-!
What no request ever undoes: recorded events, permissions, roles and organizations, the
identity of an account, the owner and the expiry of a token, and its revocation.
-/
namespace SecureIam.Api
open Lib
variable {env : Environment} {t t₁ t₂ t₃ : Tables} {es : List (Entry (machine env) HttpRequest)}
  {req : HttpRequest} {v : Write}

/-- All of an account but its last login. -/
def account (u : User) : User := { u with lastLoginAt := none }

/-- The second tables may come after the first. -/
structure Grown (t t' : Tables) : Prop where
  permissions : t'.permissions = t.permissions
  roles : t.roles <+: t'.roles
  organizations : t.organizations <+: t'.organizations
  auditLogs : t.auditLogs <+: t'.auditLogs
  users : t.users.map account <+: t'.users.map account
  refreshTokens : t.refreshTokens.map Table.refreshTokens.fixed <+:
    t'.refreshTokens.map Table.refreshTokens.fixed
  revoked : ∀ r ∈ t.refreshTokens, r.revokedAt ≠ none →
    ∃ r' ∈ t'.refreshTokens, r'.id = r.id ∧ r'.revokedAt ≠ none

theorem Grown.refl (t : Tables) : Grown t t :=
  ⟨rfl, List.prefix_rfl, List.prefix_rfl, List.prefix_rfl, List.prefix_rfl, List.prefix_rfl,
    fun r hr hrevoked => ⟨r, hr, rfl, hrevoked⟩⟩

theorem Grown.trans (h : Grown t₁ t₂) (h' : Grown t₂ t₃) : Grown t₁ t₃ where
  permissions := h'.permissions.trans h.permissions
  roles := h.roles.trans h'.roles
  organizations := h.organizations.trans h'.organizations
  auditLogs := h.auditLogs.trans h'.auditLogs
  users := h.users.trans h'.users
  refreshTokens := h.refreshTokens.trans h'.refreshTokens
  revoked r hr hrevoked := by
    obtain ⟨r', hr', hid, hrevoked'⟩ := h.revoked r hr hrevoked
    obtain ⟨r'', hr'', hid', hrevoked''⟩ := h'.revoked r' hr' hrevoked'
    exact ⟨r'', hr'', hid'.trans hid, hrevoked''⟩

theorem not_insert_permission {row : Permission} :
    ¬ (mediation env).may req es (.insert .permissions row) := by
  intro h
  obtain ⟨caller, hissues, -⟩ := h
  exact Request.issues_not_permission hissues rfl

/-- Any write grows the tables, but those that no request may make. -/
theorem grown_apply (hv : ∀ id active, v ≠ .setIsActive id active)
    (hp : ∀ row, v ≠ .insert .permissions row) : Grown t (v.apply t) := by
  have hsame := Grown.refl t
  cases v with
  | insert τ row =>
      cases τ with
      | permissions => exact absurd rfl (hp row)
      | roles => exact { hsame with roles := List.prefix_append _ _ }
      | organizations => exact { hsame with organizations := List.prefix_append _ _ }
      | auditLogs => exact { hsame with auditLogs := List.prefix_append _ _ }
      | users =>
          refine { hsame with users := ?_ }
          change t.users.map account <+: (t.users ++ [row]).map account
          exact List.map_append ▸ List.prefix_append _ _
      | refreshTokens =>
          refine { hsame with
            refreshTokens := ?_
            revoked := fun r hr hrevoked => ⟨r, List.mem_append_left _ hr, rfl, hrevoked⟩ }
          change t.refreshTokens.map _ <+: (t.refreshTokens ++ [row]).map _
          exact List.map_append ▸ List.prefix_append _ _
      | _ => exact { hsame with }
  | deleteRolePermission row | deleteUserRole row | deleteMembership row => exact { hsame with }
  | setIsActive id active => exact absurd rfl (hv id active)
  | setLastLoginAt id now =>
      refine { hsame with users := ?_ }
      have hmap : ((Write.setLastLoginAt id now).apply t).users.map account =
          t.users.map account := by
        simp only [Write.apply, List.map_map]
        refine List.map_congr_left fun u _ => ?_
        simp only [Function.comp]
        split <;> rfl
      exact hmap ▸ List.prefix_rfl
  | setRevokedAt id now =>
      have hmap : ((Write.setRevokedAt id now).apply t).refreshTokens.map
          Table.refreshTokens.fixed = t.refreshTokens.map Table.refreshTokens.fixed := by
        simp only [Write.apply, List.map_map]
        refine List.map_congr_left fun r _ => ?_
        simp only [Function.comp]
        split <;> rfl
      refine { hsame with
        refreshTokens := hmap ▸ List.prefix_rfl
        revoked := fun r hr hrevoked => ⟨_, List.mem_map_of_mem hr, ?_⟩ }
      split
      · exact ⟨rfl, by simp⟩
      · exact ⟨rfl, hrevoked⟩
  | setReplacedBy id child =>
      have hmap : ((Write.setReplacedBy id child).apply t).refreshTokens.map
          Table.refreshTokens.fixed = t.refreshTokens.map Table.refreshTokens.fixed := by
        simp only [Write.apply, List.map_map]
        refine List.map_congr_left fun r _ => ?_
        simp only [Function.comp]
        split <;> rfl
      refine { hsame with
        refreshTokens := hmap ▸ List.prefix_rfl
        revoked := fun r hr hrevoked => ⟨_, List.mem_map_of_mem hr, ?_⟩ }
      split <;> exact ⟨rfl, hrevoked⟩

/-- Whatever is called in whatever order, the log, the roles, the organizations and the
permissions keep what they have, accounts and tokens keep what they are, and what is revoked
stays revoked. -/
theorem history_grows (ht : t.Ready env) {p p' : Server env}
    (hr : Reaches (respond env) (Server.started t) p) (hr' : Reaches (respond env) p p') :
    Grown p.tables p'.tables := by
  refine ledger_across (I := fun _ => True) (R := fun _ => True) (respond_mediated ht) hr'
    (Server.ledger_kept ht hr) (fun _ => trivial) (fun _ _ _ => trivial) .refl
    (fun h h' => h.trans h') ?_
  intro req es t₁ t₂ _ _ _ ht₁ hpublished
  refine hpublished.across ht₁ .refl (fun h h' => h.trans h') fun v t _ _ hv => ?_
  refine grown_apply (fun id active heq => ?_) fun row heq => ?_
  all_goals subst heq
  · exact not_setIsActive hv
  · exact not_insert_permission hv

theorem history_grows_managed : managed.tables.auditLogs.length = 1 ∧
    Grown managedTables managed.tables :=
  ⟨by decide +kernel, history_grows managedTables_ready .refl
    (Pool.played_reaches _ (Server.started managedTables) _)⟩

end SecureIam.Api
