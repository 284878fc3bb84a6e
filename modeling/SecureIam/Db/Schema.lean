import SecureIam.Db.Tables

/-!
Keys and foreign keys. They hold of the committed tables at any time and of every
session's own view, whatever the programs of the sessions are.
-/
namespace SecureIam
open Lib

structure Tables.Schema (t : Tables) : Prop where
  unique : ∀ τ, (t.rows τ).Pairwise fun r r' => ∀ k ∈ τ.keys r, k ∉ τ.keys r'
  references : ∀ τ, ∀ r ∈ t.rows τ, ∀ k ∈ τ.references r, t.hasKey k

theorem Tables.Schema.nodup {t : Tables} (h : t.Schema) (τ : Table) : (t.rows τ).Nodup := by
  refine (h.unique τ).imp fun {r r'} hkeys heq => ?_
  have hkey : ∃ k, k ∈ τ.keys r := by cases τ <;> exact ⟨_, List.mem_cons_self⟩
  obtain ⟨k, hk⟩ := hkey
  exact hkeys k hk (heq ▸ hk)

/-- A lookup by a primary key or a unique value finds one row at most. -/
theorem Tables.Schema.filter_key {t : Tables} (h : t.Schema) {τ : Table} {k : LockKey}
    {p : τ.Row → Bool} (hp : ∀ r, p r = true → k ∈ τ.keys r) :
    (t.rows τ).filter p = [] ∨ ∃ r ∈ t.rows τ, p r = true ∧ (t.rows τ).filter p = [r] := by
  have hunique := (h.unique τ).filter p
  cases hrows : (t.rows τ).filter p with
  | nil => exact .inl rfl
  | cons r rows =>
      have hr : r ∈ t.rows τ ∧ p r = true := List.mem_filter.mp (hrows ▸ List.mem_cons_self)
      refine .inr ⟨r, hr.1, hr.2, ?_⟩
      cases rows with
      | nil => rfl
      | cons r' rows =>
          have hr' : r' ∈ t.rows τ ∧ p r' = true :=
            List.mem_filter.mp (hrows ▸ List.mem_cons_of_mem _ List.mem_cons_self)
          rw [hrows] at hunique
          have hdisjoint := List.rel_of_pairwise_cons hunique List.mem_cons_self
          exact absurd (hp r' hr'.2) (hdisjoint k (hp r hr.2))

/-- Rows that share a key are the same. -/
theorem Tables.Schema.row_unique {t : Tables} (h : t.Schema) {τ : Table} {k : LockKey}
    {r r' : τ.Row} (hr : r ∈ t.rows τ) (hr' : r' ∈ t.rows τ) (hk : k ∈ τ.keys r)
    (hk' : k ∈ τ.keys r') : r = r' := by
  have hpair := List.Pairwise.forall_of_forall_of_flip
    (R := fun x y : τ.Row => k ∈ τ.keys x → k ∈ τ.keys y → x = y) (fun _ _ _ _ => rfl)
    ((h.unique τ).imp fun hdisjoint hx hy => absurd hy (hdisjoint k hx))
    ((h.unique τ).imp fun hdisjoint => fun hy hx => absurd hy (hdisjoint k hx))
  exact hpair hr hr' hk hk'

/-- No foreign key refers to these tables; only their rows are ever deleted. -/
def Table.Link (τ : Table) : Prop :=
  τ ∈ [.rolePermissions, .userRoles, .memberships]

instance : DecidablePred Table.Link := fun τ => inferInstanceAs (Decidable (τ ∈ _))

theorem LockKey.not_link {τ : Table} {id : Uuid} (h : ¬ τ.Link) :
    ¬ (LockKey.primary τ id).table.Link := h

theorem LockKey.not_link_email (email : String) : ¬ (LockKey.email email).table.Link := by
  simp [Table.Link, LockKey.table]

theorem Table.not_link_references {τ : Table} {r : τ.Row} {k : LockKey} (h : k ∈ τ.references r) :
    ¬ k.table.Link := by
  cases τ <;> simp only [references, List.mem_cons, List.mem_append, List.mem_map,
    List.not_mem_nil, or_false] at h
  all_goals
    intro hl
    simp only [Link, List.mem_cons, List.not_mem_nil, or_false] at hl
    grind [LockKey.table]

namespace Write
variable {w : Write} {t t' : Tables} {k : LockKey}

/-- What PostgreSQL checks of a write. -/
structure Ok (w : Write) (t : Tables) : Prop where
  adds : ∀ k ∈ w.adds, ¬ t.hasKey k
  requires : ∀ k ∈ w.requires, t.hasKey k

instance (w : Write) (t : Tables) : Decidable (w.Ok t) :=
  decidable_of_iff ((∀ k ∈ w.adds, ¬ t.hasKey k) ∧ ∀ k ∈ w.requires, t.hasKey k)
    ⟨fun h => ⟨h.1, h.2⟩, fun h => ⟨h.1, h.2⟩⟩

/-- A row keeps its keys, whatever a write does to it. -/
theorem Acts.hasKey {f : List k.table.Row → List k.table.Row} (h : w.Acts k.table f)
    (hk : ¬ k.table.Link) {rows : List k.table.Row} (hrow : ∃ r ∈ rows, k ∈ k.table.keys r) :
    ∃ r ∈ f rows, k ∈ k.table.keys r := by
  obtain ⟨r, hr, hkr⟩ := hrow
  cases h with
  | keep => exact ⟨r, hr, hkr⟩
  | insert r' hw => exact ⟨r, List.mem_append_left _ hr, hkr⟩
  | delete p hp hτ hdel => exact absurd hdel hk
  | update id f hw hfix hid href =>
      refine ⟨f r, List.mem_map_of_mem hr, ?_⟩
      rwa [← Table.keys_fixed, hfix, Table.keys_fixed]

theorem hasKey_apply (w : Write) (hk : ¬ k.table.Link) (h : t.hasKey k) :
    (w.apply t).hasKey k := by
  obtain ⟨f, hacts, hf⟩ := w.apply_acts k.table
  simp only [Tables.hasKey, List.any_eq_true, decide_eq_true_eq, hf] at h ⊢
  exact hacts.hasKey hk h

/-- No key appears but those that a write adds. -/
theorem hasKey_of_apply (h : (w.apply t).hasKey k) : t.hasKey k ∨ k ∈ w.adds := by
  obtain ⟨f, hacts, hf⟩ := w.apply_acts k.table
  simp only [Tables.hasKey, List.any_eq_true, decide_eq_true_eq, hf] at h ⊢
  obtain ⟨r, hr, hkr⟩ := h
  cases hacts with
  | keep => exact .inl ⟨r, hr, hkr⟩
  | insert r' hw =>
      subst hw
      cases List.mem_append.mp hr with
      | inl hr => exact .inl ⟨r, hr, hkr⟩
      | inr hr => exact .inr (List.mem_singleton.mp hr ▸ hkr)
  | delete p hp hτ hdel => exact .inl ⟨r, (List.mem_filter.mp hr).1, hkr⟩
  | update id f hw hfix hid href =>
      obtain ⟨r', hr', rfl⟩ := List.mem_map.mp hr
      exact .inl ⟨r', hr', by rwa [← Table.keys_fixed, ← hfix, Table.keys_fixed]⟩

end Write

theorem LockKey.Same.hasKey {k : LockKey} {t t' : Tables} (h : k.Same t t') :
    t.hasKey k = t'.hasKey k := by
  have key : ∀ t : Tables, t.hasKey k =
      !(((t.rows k.table).filter (k ∈ k.table.keys ·)).map k.part).isEmpty := fun t => by
    rw [Bool.eq_iff_iff]
    simp [Tables.hasKey, List.filter_eq_nil_iff]
  rw [key, key, h]

/-- The other tables only ever grow: whatever key one of their rows has, stays. -/
def Tables.Lasts (t t' : Tables) : Prop :=
  ∀ k : LockKey, ¬ k.table.Link → t.hasKey k → t'.hasKey k

namespace Write
variable {w : Write} {t t' : Tables}

theorem lasts_congr (w : Write) (h : t.Lasts t') : (w.apply t).Lasts (w.apply t') := by
  intro k hk hkey
  cases hasKey_of_apply hkey with
  | inl h' => exact hasKey_apply w hk (h k hk h')
  | inr h' =>
      cases w with
      | insert τ r =>
          have hkr : k ∈ τ.keys r := h'
          refine Tables.hasKey_iff.mpr ⟨τ, r, ?_, hkr⟩
          rw [apply, Tables.rows_insert_self]
          simp
      | _ => exact absurd h' List.not_mem_nil

theorem Ok.stable (h : w.Ok t) (hsame : ∀ k ∈ w.keys, k.Same t t') (hlasts : t.Lasts t') :
    w.Ok t' := by
  constructor
  · intro k hk
    have hkeys : k ∈ w.keys := by
      cases w with
      | insert τ r => exact hk
      | _ => exact absurd hk List.not_mem_nil
    rw [← (hsame k hkeys).hasKey]
    exact h.adds k hk
  · intro k hk
    refine hlasts k ?_ (h.requires k hk)
    cases w with
    | insert τ r => exact Table.not_link_references hk
    | setReplacedBy id child =>
        obtain rfl := List.mem_singleton.mp hk
        simp [Table.Link, LockKey.table]
    | _ => exact absurd hk List.not_mem_nil

theorem schema_apply (ht : t.Schema) (hok : w.Ok t) : (w.apply t).Schema := by
  constructor
  · intro τ
    obtain ⟨f, hacts, hf⟩ := w.apply_acts τ
    rw [hf]
    cases hacts with
    | keep => exact ht.unique τ
    | insert r hw =>
        subst hw
        refine List.pairwise_append.mpr ⟨ht.unique τ, List.pairwise_singleton _ _, ?_⟩
        intro r₁ hr₁ r₂ hr₂ k hk hk'
        obtain rfl := List.mem_singleton.mp hr₂
        exact hok.adds k hk' (Tables.hasKey_iff.mpr ⟨τ, r₁, hr₁, hk⟩)
    | delete p hp hτ hdel => exact (ht.unique τ).filter p
    | update id f hw hfix hid href =>
        refine List.pairwise_map.mpr ((ht.unique τ).imp ?_)
        intro r₁ r₂ h
        rwa [← Table.keys_fixed, ← τ.keys_fixed (f r₂), hfix, hfix, Table.keys_fixed,
          Table.keys_fixed]
  · intro τ r hr k hk
    have lasts : t.hasKey k → (w.apply t).hasKey k :=
      hasKey_apply w (Table.not_link_references hk)
    obtain ⟨f, hacts, hf⟩ := w.apply_acts τ
    rw [hf] at hr
    cases hacts with
    | keep => exact lasts (ht.references τ r hr k hk)
    | insert r' hw =>
        subst hw
        cases List.mem_append.mp hr with
        | inl hr => exact lasts (ht.references τ r hr k hk)
        | inr hr =>
            obtain rfl := List.mem_singleton.mp hr
            exact lasts (hok.requires k hk)
    | delete p hp hτ hdel => exact lasts (ht.references τ r (List.mem_filter.mp hr).1 k hk)
    | update id f hw hfix hid href =>
        obtain ⟨r', hr', rfl⟩ := List.mem_map.mp hr
        cases href r' k hk with
        | inl hk' => exact lasts (ht.references τ r' hr' k hk')
        | inr hk' => exact lasts (hok.requires k hk')

end Write

/-- Keys and foreign keys as the constraints of the store. -/
def schema : Constraints tableStore where
  Good := Tables.Schema
  Ok := Write.Ok
  Lasts := Tables.Lasts
  lasts_refl _ _ _ h := h
  lasts_trans h h' k hk := fun hkey => h' k hk (h k hk hkey)
  lasts_apply w _ _ hk h := w.hasKey_apply hk h
  lasts_congr w h := w.lasts_congr h
  same_congr w h := w.same_congr h
  good_apply := Write.schema_apply
  ok_stable hsame hlasts hok := hok.stable hsame hlasts

end SecureIam
