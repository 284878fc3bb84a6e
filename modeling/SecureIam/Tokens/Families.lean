import SecureIam.Db.Schema
import SecureIam.Lib.Chain

/-!
Families of refresh tokens: the paths that `replaced_by` makes of the rows.
-/
namespace SecureIam
open Lib

/-- The chain of `replaced_by`. -/
def rotation : Chaining RefreshToken Uuid := ⟨RefreshToken.id, RefreshToken.replacedBy⟩

structure Families (rows : List RefreshToken) : Prop where
  linear : rotation.Linear rows
  owner : ∀ r ∈ rows, ∀ r' ∈ rows, r.replacedBy = some r'.id → r.userId = r'.userId
  superseded : ∀ r ∈ rows, r.replacedBy ≠ none → r.revokedAt ≠ none

/-- What any number of statements may do to a row: a revoked row stays revoked and
keeps its successor, or stays without one. -/
structure RefreshToken.Evolves (r r' : RefreshToken) : Prop where
  id : r'.id = r.id
  userId : r'.userId = r.userId
  tokenHash : r'.tokenHash = r.tokenHash
  expiresAt : r'.expiresAt = r.expiresAt
  revoked : r.revokedAt ≠ none → r'.revokedAt ≠ none
  frozen : r.revokedAt ≠ none → r'.replacedBy = r.replacedBy

theorem RefreshToken.Evolves.refl (r : RefreshToken) : r.Evolves r :=
  ⟨rfl, rfl, rfl, rfl, fun h => h, fun _ => rfl⟩

theorem RefreshToken.Evolves.trans {r₁ r₂ r₃ : RefreshToken} (h : r₁.Evolves r₂)
    (h' : r₂.Evolves r₃) : r₁.Evolves r₃ :=
  ⟨h'.id.trans h.id, h'.userId.trans h.userId, h'.tokenHash.trans h.tokenHash,
    h'.expiresAt.trans h.expiresAt, fun hr => h'.revoked (h.revoked hr),
    fun hr => (h'.frozen (h.revoked hr)).trans (h.frozen hr)⟩

/-- No row is lost, and no row that exists gets a predecessor. -/
structure Evolves (rows rows' : List RefreshToken) : Prop where
  kept : ∀ r ∈ rows, ∃ r' ∈ rows', r.Evolves r'
  links : ∀ p ∈ rows', ∀ r ∈ rows, p.replacedBy = some r.id →
    ∃ p₀ ∈ rows, p₀.id = p.id ∧ p₀.replacedBy = some r.id

theorem Evolves.refl (rows : List RefreshToken) : Evolves rows rows :=
  ⟨fun r hr => ⟨r, hr, .refl r⟩, fun p hp _ _ hn => ⟨p, hp, rfl, hn⟩⟩

theorem Evolves.trans {rows₁ rows₂ rows₃ : List RefreshToken} (h : Evolves rows₁ rows₂)
    (h' : Evolves rows₂ rows₃) : Evolves rows₁ rows₃ := by
  constructor
  · intro r hr
    obtain ⟨r₂, hr₂, hev⟩ := h.kept r hr
    obtain ⟨r₃, hr₃, hev'⟩ := h'.kept r₂ hr₂
    exact ⟨r₃, hr₃, hev.trans hev'⟩
  · intro p hp r hr hn
    obtain ⟨r₂, hr₂, hev⟩ := h.kept r hr
    rw [← hev.id] at hn ⊢
    obtain ⟨p₂, hp₂, hid₂, hn₂⟩ := h'.links p hp r₂ hr₂ hn
    rw [hev.id] at hn₂ ⊢
    obtain ⟨p₁, hp₁, hid₁, hn₁⟩ := h.links p₂ hp₂ r hr hn₂
    exact ⟨p₁, hp₁, hid₁.trans hid₂, hn₁⟩

/-- Some row of the key is revoked. -/
def Revoked (rows : List RefreshToken) (id : Uuid) : Prop :=
  ∃ r ∈ rows, r.id = id ∧ r.revokedAt ≠ none

/-- The row of the key is revoked and has no successor: it never gets one. -/
def Dead (rows : List RefreshToken) (id : Uuid) : Prop :=
  ∃ r ∈ rows, r.id = id ∧ r.revokedAt ≠ none ∧ r.replacedBy = none

/-- Every token of the family is revoked. -/
def FamilyRevoked (rows : List RefreshToken) (id : Uuid) : Prop :=
  ∀ r ∈ rows, rotation.Joined rows id r.id → r.revokedAt ≠ none

section Stable
variable {rows rows' : List RefreshToken} {id a b : Uuid} {n : Nat}

theorem Revoked.evolves (h : Revoked rows id) (he : Evolves rows rows') : Revoked rows' id := by
  obtain ⟨r, hr, rfl, hrev⟩ := h
  obtain ⟨r', hr', hev⟩ := he.kept r hr
  exact ⟨r', hr', hev.id, hev.revoked hrev⟩

theorem Dead.evolves (h : Dead rows id) (he : Evolves rows rows') : Dead rows' id := by
  obtain ⟨r, hr, rfl, hrev, hnone⟩ := h
  obtain ⟨r', hr', hev⟩ := he.kept r hr
  exact ⟨r', hr', hev.id, hev.revoked hrev, (hev.frozen hrev).trans hnone⟩

theorem Evolves.link (he : Evolves rows rows') (h : Families rows) (hl : rotation.Link rows a b) :
    rotation.Link rows' a b := by
  obtain ⟨r, hr, rfl, hb⟩ := hl
  obtain ⟨r', hr', hev⟩ := he.kept r hr
  have hne : r.replacedBy ≠ none := fun hn => by simp [rotation, hn] at hb
  exact ⟨r', hr', hev.id, (hev.frozen (h.superseded r hr hne)).trans hb⟩

theorem Evolves.links_mono (he : Evolves rows rows') (h : Families rows)
    (hl : rotation.Links rows n a b) :
    rotation.Links rows' n a b :=
  hl.mono fun _ _ => he.link h

end Stable

namespace Families
variable {rows : List RefreshToken} {r p x : RefreshToken} {id : Uuid} (h : Families rows)
include h

theorem row_unique {r' : RefreshToken} (hr : r ∈ rows) (hr' : r' ∈ rows) (hid : r.id = r'.id) :
    r = r' :=
  h.linear.row_unique hr hr' hid

/-- The lookup of a row by its key. -/
theorem filter_id (hr : r ∈ rows) : rows.filter (·.id = r.id) = [r] := by
  have hunique := h.linear.unique
  clear h
  induction rows with
  | nil => cases hr
  | cons y rows ih =>
      rw [List.map_cons, List.nodup_cons] at hunique
      cases List.mem_cons.mp hr with
      | inl hy =>
          subst hy
          rw [List.filter_cons_of_pos (by simp), List.filter_eq_nil_iff.mpr]
          intro z hz hid
          exact hunique.1 (List.mem_map.mpr ⟨z, hz, of_decide_eq_true hid⟩)
      | inr hmem =>
          have hne : y.id ≠ r.id := fun hid =>
            hunique.1 (List.mem_map.mpr ⟨r, hmem, hid.symm⟩)
          rw [List.filter_cons_of_neg (by simpa using hne), ih hmem hunique.2]

theorem links_row {n : Nat} {a : Uuid} (hl : rotation.Links rows (n + 1) a id) :
    ∃ y ∈ rows, y.id = id := by
  obtain ⟨c, -, y, hy, -, hn⟩ := hl
  exact h.linear.closed y hy id hn

/-- All tokens before the last one of a family are revoked. -/
theorem revoked_of_links {n : Nat} (hl : rotation.Links rows (n + 1) r.id id) (hr : r ∈ rows) :
    r.revokedAt ≠ none := by
  obtain ⟨c, ⟨r', hr', hid, hc⟩, -⟩ := Chaining.links_succ_left.mp hl
  obtain rfl := h.row_unique hr' hr hid
  exact h.superseded r' hr' fun hn => by simp [rotation, hn] at hc

/-- A family is revoked as soon as its last token is. -/
theorem familyRevoked_of_dead {n : Nat} {a : Uuid} (hl : rotation.Links rows n a id)
    (hdead : Dead rows id) : FamilyRevoked rows a := by
  intro r hr hj
  obtain ⟨e, he, rfl, hrev, hnone⟩ := hdead
  have hend : rotation.End rows e.id := ⟨e, he, rfl, hnone⟩
  obtain ⟨m, k, c, ha, hrc⟩ := h.linear.joined_trans hj.symm hl.joined
  cases k with
  | zero =>
      obtain rfl : e.id = c := hrc
      cases m with
      | zero =>
          obtain rfl : r = e := h.row_unique hr he ha
          exact hrev
      | succ m => exact h.revoked_of_links ha hr
  | succ k =>
      obtain ⟨d, hd, -⟩ := Chaining.links_succ_left.mp hrc
      exact absurd hend (h.linear.not_end hd)

/-- The last token of a family, as every token of it sees it. -/
theorem exists_last (hr : r ∈ rows) :
    ∃ n, ∃ e ∈ rows, rotation.Links rows n r.id e.id ∧ e.replacedBy = none :=
  h.linear.exists_end hr

end Families

/-! What the three kinds of transaction do to the rows. -/

def RefreshToken.revoke (id : Uuid) (t : Time) (r : RefreshToken) : RefreshToken :=
  if r.id = id then { r with revokedAt := some t } else r

def RefreshToken.supersede (id : Uuid) (t : Time) (child : Uuid) (r : RefreshToken) :
    RefreshToken :=
  if r.id = id then { r with revokedAt := some t, replacedBy := some child } else r

section Transactions
variable {rows : List RefreshToken} {r p x : RefreshToken} {id child : Uuid} {t : Time}

theorem revoke_evolves (r : RefreshToken) (id : Uuid) (t : Time) : r.Evolves (r.revoke id t) := by
  simp only [RefreshToken.revoke]
  split
  · exact ⟨rfl, rfl, rfl, rfl, fun _ => by simp, fun _ => rfl⟩
  · exact .refl r

theorem revoke_same (r : RefreshToken) (id : Uuid) (t : Time) :
    (r.revoke id t).id = r.id ∧ (r.revoke id t).userId = r.userId ∧
      (r.revoke id t).replacedBy = r.replacedBy := by
  simp only [RefreshToken.revoke]
  split <;> exact ⟨rfl, rfl, rfl⟩

theorem supersede_evolves (h : r.id = id → r.revokedAt = none) :
    r.Evolves (r.supersede id t child) := by
  simp only [RefreshToken.supersede]
  split
  · rename_i hid
    exact ⟨rfl, rfl, rfl, rfl, fun hr => absurd (h hid) hr, fun hr => absurd (h hid) hr⟩
  · exact .refl r

theorem supersede_other (hne : r.id ≠ id) : r.supersede id t child = r :=
  if_neg hne

theorem evolves_revoke (rows : List RefreshToken) (id : Uuid) (t : Time) :
    Evolves rows (rows.map (·.revoke id t)) := by
  constructor
  · exact fun r hr => ⟨_, List.mem_map_of_mem hr, revoke_evolves r id t⟩
  · intro p hp r hr hn
    obtain ⟨p₀, hp₀, rfl⟩ := List.mem_map.mp hp
    exact ⟨p₀, hp₀, (revoke_same p₀ id t).1.symm, (revoke_same p₀ id t).2.2 ▸ hn⟩

theorem evolves_append (rows : List RefreshToken) (hn : x.replacedBy = none) :
    Evolves rows (rows ++ [x]) := by
  constructor
  · exact fun r hr => ⟨r, List.mem_append_left _ hr, .refl r⟩
  · intro p hp r hr hpr
    simp only [List.mem_append, List.mem_singleton] at hp
    cases hp with
    | inl hp => exact ⟨p, hp, rfl, hpr⟩
    | inr hp => simp [hp, hn] at hpr

namespace Families
variable (h : Families rows)
include h

theorem evolves_rotate (hp : p ∈ rows) (hlive : p.revokedAt = none) (hx : ∀ r ∈ rows, r.id ≠ x.id)
    (hn : x.replacedBy = none) : Evolves rows (rows.map (·.supersede p.id t x.id) ++ [x]) := by
  constructor
  · intro r hr
    refine ⟨_, List.mem_append_left _ (List.mem_map_of_mem hr), supersede_evolves fun hid => ?_⟩
    exact h.row_unique hr hp hid ▸ hlive
  · intro y hy r hr hyr
    simp only [List.mem_append, List.mem_map, List.mem_singleton] at hy
    cases hy with
    | inr hy => simp [hy, hn] at hyr
    | inl hy =>
        obtain ⟨y₀, hy₀, rfl⟩ := hy
        by_cases hid : y₀.id = p.id
        · simp only [RefreshToken.supersede, hid, if_true, Option.some.injEq] at hyr
          exact absurd hyr.symm (hx r hr)
        · rw [supersede_other hid] at hyr ⊢
          exact ⟨y₀, hy₀, rfl, hyr⟩

theorem revoke (id : Uuid) (t : Time) : Families (rows.map (·.revoke id t)) := by
  have hsame := fun r : RefreshToken => revoke_same r id t
  refine ⟨h.linear.map (fun r => (hsame r).1) (fun r => (hsame r).2.2), ?_, ?_⟩
  · intro y hy y' hy' hn
    obtain ⟨r, hr, rfl⟩ := List.mem_map.mp hy
    obtain ⟨r', hr', rfl⟩ := List.mem_map.mp hy'
    rw [(hsame r).2.2, (hsame r').1] at hn
    rw [(hsame r).2.1, (hsame r').2.1]
    exact h.owner r hr r' hr' hn
  · intro y hy hn
    obtain ⟨r, hr, rfl⟩ := List.mem_map.mp hy
    rw [(hsame r).2.2] at hn
    exact (revoke_evolves r id t).revoked (h.superseded r hr hn)

theorem append (hx : ∀ r ∈ rows, r.id ≠ x.id) (hn : x.replacedBy = none) :
    Families (rows ++ [x]) := by
  have hto : ∀ r ∈ rows, r.replacedBy ≠ some x.id := by
    intro r hr hc
    obtain ⟨r', hr', hid⟩ := h.linear.closed r hr _ hc
    exact hx r' hr' hid
  refine ⟨h.linear.append hx hn, ?_, ?_⟩
  · intro r hr r' hr' hc
    simp only [List.mem_append, List.mem_singleton] at hr hr'
    cases hr with
    | inr hr => simp [hr, hn] at hc
    | inl hr =>
        cases hr' with
        | inl hr' => exact h.owner r hr r' hr' hc
        | inr hr' => exact absurd (hr' ▸ hc) (hto r hr)
  · intro r hr hne
    simp only [List.mem_append, List.mem_singleton] at hr
    cases hr with
    | inl hr => exact h.superseded r hr hne
    | inr hr => exact absurd (hr ▸ hn) hne

theorem rotate (hp : p ∈ rows) (hx : ∀ r ∈ rows, r.id ≠ x.id) (hn : x.replacedBy = none)
    (howner : x.userId = p.userId) (t : Time) :
    Families (rows.map (·.supersede p.id t x.id) ++ [x]) := by
  have hto : ∀ r ∈ rows, r.replacedBy ≠ some x.id := by
    intro r hr hc
    obtain ⟨r', hr', hid⟩ := h.linear.closed r hr _ hc
    exact hx r' hr' hid
  have hsame : ∀ r : RefreshToken, (r.supersede p.id t x.id).id = r.id ∧
      (r.supersede p.id t x.id).userId = r.userId := by
    intro r
    simp only [RefreshToken.supersede]
    split <;> exact ⟨rfl, rfl⟩
  have hlink : ∀ r : RefreshToken, r.id = p.id →
      (r.supersede p.id t x.id).replacedBy = some x.id ∧
        (r.supersede p.id t x.id).revokedAt ≠ none := by
    intro r hid
    simp [RefreshToken.supersede, hid]
  refine ⟨?_, ?_, ?_⟩
  · exact h.linear.extend hp hx hn (fun r => (hsame r).1)
      (fun r hne => congrArg RefreshToken.replacedBy (supersede_other hne))
      (fun r hid => (hlink r hid).1)
  · intro y hy y' hy' hc
    simp only [List.mem_append, List.mem_map, List.mem_singleton] at hy hy'
    cases hy with
    | inr hy => simp [hy, hn] at hc
    | inl hy =>
        obtain ⟨r, hr, rfl⟩ := hy
        rw [(hsame r).2]
        by_cases hid : r.id = p.id
        · rw [(hlink r hid).1, Option.some.injEq] at hc
          obtain rfl := h.row_unique hr hp hid
          cases hy' with
          | inr hy' => rw [hy', howner]
          | inl hy' =>
              obtain ⟨r', hr', rfl⟩ := hy'
              exact absurd ((hsame r').1 ▸ hc.symm) (hx r' hr')
        · rw [supersede_other hid] at hc
          cases hy' with
          | inr hy' => exact absurd (hy' ▸ hc) (hto r hr)
          | inl hy' =>
              obtain ⟨r', hr', rfl⟩ := hy'
              rw [(hsame r').1] at hc
              rw [(hsame r').2]
              exact h.owner r hr r' hr' hc
  · intro y hy hne
    simp only [List.mem_append, List.mem_map, List.mem_singleton] at hy
    cases hy with
    | inr hy => exact absurd (hy ▸ hn) hne
    | inl hy =>
        obtain ⟨r, hr, rfl⟩ := hy
        by_cases hid : r.id = p.id
        · exact (hlink r hid).2
        · rw [supersede_other hid] at hne ⊢
          exact h.superseded r hr hne

end Families

end Transactions

end SecureIam
