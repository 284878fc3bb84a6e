import Mathlib.Data.List.Chain
import Mathlib.Data.List.Nodup
import Mathlib.Data.List.Perm.Basic

/-!
Rows that name their successor by key.

A list of rows is linear when keys are unique, successors exist, no two rows share
one, and every successor comes later in the list. Then the rows fall into finite
simple paths, and every key leads to the one end of its path.
-/
namespace SecureIam.Lib
variable {α κ : Type}

structure Chaining (α κ : Type) where
  key : α → κ
  next : α → Option κ

namespace Chaining
variable (C : Chaining α κ)

structure Linear (rows : List α) : Prop where
  unique : (rows.map C.key).Nodup
  closed : ∀ r ∈ rows, ∀ c, C.next r = some c → ∃ r' ∈ rows, C.key r' = c
  single : ∀ r ∈ rows, ∀ r' ∈ rows, ∀ c, C.next r = some c → C.next r' = some c → r = r'
  forward : rows.Pairwise fun r r' => C.next r' ≠ some (C.key r)
  irrefl : ∀ r ∈ rows, C.next r ≠ some (C.key r)

def Link (rows : List α) (a b : κ) : Prop :=
  ∃ r ∈ rows, C.key r = a ∧ C.next r = some b

/-- `b` is `n` links after `a`. -/
def Links (rows : List α) : Nat → κ → κ → Prop
  | 0, a, b => a = b
  | n + 1, a, b => ∃ c, Links rows n a c ∧ C.Link rows c b

/-- The row of the key has no successor. -/
def End (rows : List α) (a : κ) : Prop :=
  ∃ r ∈ rows, C.key r = a ∧ C.next r = none

/-- The two keys lie on one path. -/
def Joined (rows : List α) (a b : κ) : Prop :=
  ∃ m n c, C.Links rows m a c ∧ C.Links rows n b c

variable {C} {rows rows' : List α} {a b c d : κ} {m n : Nat}

theorem Links.mono (h : ∀ a b, C.Link rows a b → C.Link rows' a b) (hn : C.Links rows n a b) :
    C.Links rows' n a b := by
  induction n generalizing b with
  | zero => exact hn
  | succ n ih =>
      obtain ⟨c, hc, hcb⟩ := hn
      exact ⟨c, ih hc, h c b hcb⟩

theorem Links.trans (h : C.Links rows m a b) (h' : C.Links rows n b c) :
    C.Links rows (m + n) a c := by
  induction n generalizing c with
  | zero => exact h' ▸ h
  | succ n ih =>
      obtain ⟨d, hd, hdc⟩ := h'
      exact ⟨d, ih hd, hdc⟩

theorem links_one (h : C.Link rows a b) : C.Links rows 1 a b :=
  ⟨a, rfl, h⟩

theorem Links.split (h : C.Links rows (m + n) a c) :
    ∃ b, C.Links rows m a b ∧ C.Links rows n b c := by
  induction n generalizing c with
  | zero => exact ⟨c, h, rfl⟩
  | succ n ih =>
      obtain ⟨d, hd, hdc⟩ := h
      obtain ⟨b, hb, hbd⟩ := ih hd
      exact ⟨b, hb, d, hbd, hdc⟩

theorem links_succ_left : C.Links rows (n + 1) a c ↔ ∃ b, C.Link rows a b ∧ C.Links rows n b c := by
  constructor
  · intro h
    rw [Nat.add_comm] at h
    obtain ⟨b, ⟨a', ha, hab⟩, hbc⟩ := h.split
    obtain rfl : a = a' := ha
    exact ⟨b, hab, hbc⟩
  · intro ⟨b, hab, hbc⟩
    rw [Nat.add_comm]
    exact (links_one hab).trans hbc

theorem Joined.symm (h : C.Joined rows a b) : C.Joined rows b a := by
  obtain ⟨m, n, c, ha, hb⟩ := h
  exact ⟨n, m, c, hb, ha⟩

theorem Links.joined (h : C.Links rows n a b) : C.Joined rows a b :=
  ⟨n, 0, b, h, rfl⟩

namespace Linear
variable (h : C.Linear rows)
include h

theorem row_unique {r r' : α} (hr : r ∈ rows) (hr' : r' ∈ rows) (hk : C.key r = C.key r') :
    r = r' :=
  List.inj_on_of_nodup_map h.unique hr hr' hk

theorem link_functional (hb : C.Link rows a b) (hc : C.Link rows a c) : b = c := by
  obtain ⟨r, hr, hra, hrb⟩ := hb
  obtain ⟨r', hr', hra', hrc⟩ := hc
  obtain rfl := h.row_unique hr hr' (hra.trans hra'.symm)
  exact Option.some.inj (hrb.symm.trans hrc)

theorem link_injective (ha : C.Link rows a c) (hb : C.Link rows b c) : a = b := by
  obtain ⟨r, hr, rfl, hrc⟩ := ha
  obtain ⟨r', hr', rfl, hrc'⟩ := hb
  rw [h.single r hr r' hr' c hrc hrc']

theorem not_end (hb : C.Link rows a b) : ¬ C.End rows a := by
  intro ⟨r, hr, hra, hnone⟩
  obtain ⟨r', hr', hra', hrb⟩ := hb
  obtain rfl := h.row_unique hr hr' (hra.trans hra'.symm)
  simp [hnone] at hrb

theorem links_functional (hb : C.Links rows n a b) (hc : C.Links rows n a c) : b = c := by
  induction n generalizing b c with
  | zero => exact hb.symm.trans hc
  | succ n ih =>
      obtain ⟨b', hb', hbb⟩ := hb
      obtain ⟨c', hc', hcc⟩ := hc
      obtain rfl := ih hb' hc'
      exact h.link_functional hbb hcc

/-- Two keys that lead to one key the same number of links later are the same. -/
theorem links_injective (ha : C.Links rows n a c) (hb : C.Links rows n b c) : a = b := by
  induction n generalizing c with
  | zero => exact Eq.trans ha (Eq.symm hb)
  | succ n ih =>
      obtain ⟨a', ha', haa⟩ := ha
      obtain ⟨b', hb', hbb⟩ := hb
      obtain rfl := h.link_injective haa hbb
      exact ih ha' hb'

/-- Of two keys after `a`, the farther one comes after the nearer one. -/
theorem links_between (hb : C.Links rows m a b) (hc : C.Links rows (m + n) a c) :
    C.Links rows n b c := by
  obtain ⟨b', hb', hbc⟩ := hc.split
  exact h.links_functional hb hb' ▸ hbc

/-- Of two keys on one path, one comes after the other. -/
theorem joined_iff : C.Joined rows a b ↔ (∃ n, C.Links rows n a b) ∨ ∃ n, C.Links rows n b a := by
  constructor
  · intro ⟨m, n, c, ha, hb⟩
    cases Nat.le_total n m with
    | inl hle =>
        obtain ⟨k, rfl⟩ := Nat.exists_eq_add_of_le hle
        rw [Nat.add_comm] at ha
        obtain ⟨b', hab, hbc⟩ := ha.split
        exact .inl ⟨k, h.links_injective hbc hb ▸ hab⟩
    | inr hle =>
        obtain ⟨k, rfl⟩ := Nat.exists_eq_add_of_le hle
        rw [Nat.add_comm] at hb
        obtain ⟨a', hba, hac⟩ := hb.split
        exact .inr ⟨k, h.links_injective hac ha ▸ hba⟩
  · intro hab
    cases hab with
    | inl hab => exact hab.choose_spec.joined
    | inr hab => exact hab.choose_spec.joined.symm

theorem joined_trans (hab : C.Joined rows a b) (hbc : C.Joined rows b c) : C.Joined rows a c := by
  obtain ⟨m, n, d, ha, hb⟩ := hab
  obtain ⟨m', n', d', hb', hc⟩ := hbc
  cases Nat.le_total n m' with
  | inl hle =>
      obtain ⟨k, rfl⟩ := Nat.exists_eq_add_of_le hle
      exact ⟨m + k, n', d', ha.trans (h.links_between hb hb'), hc⟩
  | inr hle =>
      obtain ⟨k, rfl⟩ := Nat.exists_eq_add_of_le hle
      exact ⟨m, n' + k, d, ha, hc.trans (h.links_between hb' hb)⟩

section Position
variable [DecidableEq κ]

private theorem getElem_position {r : α} (hr : r ∈ rows) :
    ∃ hlt : (rows.map C.key).idxOf (C.key r) < rows.length,
      rows[(rows.map C.key).idxOf (C.key r)] = r := by
  have hlt := List.idxOf_lt_length_of_mem (List.mem_map_of_mem (f := C.key) hr)
  have hkey := List.getElem_idxOf hlt
  rw [List.length_map] at hlt
  rw [List.getElem_map] at hkey
  exact ⟨hlt, h.row_unique (List.getElem_mem hlt) hr hkey⟩

/-- Links lead forward in the list. -/
theorem link_position (hab : C.Link rows a b) :
    (rows.map C.key).idxOf a < (rows.map C.key).idxOf b := by
  obtain ⟨r, hr, rfl, hn⟩ := hab
  obtain ⟨r', hr', rfl⟩ := h.closed r hr b hn
  obtain ⟨hi, hri⟩ := h.getElem_position hr
  obtain ⟨hj, hrj⟩ := h.getElem_position hr'
  have hpair := List.pairwise_iff_getElem.mp h.forward
  cases Nat.lt_trichotomy ((rows.map C.key).idxOf (C.key r))
      ((rows.map C.key).idxOf (C.key r')) with
  | inl hlt => exact hlt
  | inr hge =>
      cases hge with
      | inl heq =>
          have : r = r' := by rw [← hri, ← hrj]; simp only [heq]
          exact absurd (this ▸ hn) (h.irrefl r hr)
      | inr hgt => exact absurd hn (hri ▸ hrj ▸ hpair _ _ hj hi hgt)

theorem links_position (hab : C.Links rows n a b) :
    (rows.map C.key).idxOf a + n ≤ (rows.map C.key).idxOf b := by
  induction n generalizing b with
  | zero => rw [show a = b from hab, Nat.add_zero]
  | succ n ih =>
      obtain ⟨c, hac, hcb⟩ := hab
      have := ih hac
      have := h.link_position hcb
      omega

end Position

/-- There is no cycle. -/
theorem links_ne (hab : C.Links rows (n + 1) a b) : a ≠ b := by
  classical
  intro heq
  have := h.links_position hab
  rw [heq] at this
  omega

/-- A path is shorter than the list. -/
theorem links_lt_length (hab : C.Links rows (n + 1) a b) : n + 1 < rows.length := by
  classical
  have hpos := h.links_position hab
  obtain ⟨c, -, r, hr, -, hn⟩ := hab
  obtain ⟨r', hr', rfl⟩ := h.closed r hr b hn
  have hlt := List.idxOf_lt_length_of_mem (List.mem_map_of_mem (f := C.key) hr')
  rw [List.length_map] at hlt
  omega

theorem links_distance (hm : C.Links rows m a b) (hn : C.Links rows n a b) : m = n := by
  have aux : ∀ {m k}, C.Links rows m a b → C.Links rows (m + k) a b → k = 0 := by
    intro m k hm hmk
    cases k with
    | zero => rfl
    | succ k => exact absurd rfl (h.links_ne (h.links_between hm hmk))
  cases Nat.le_total m n with
  | inl hle =>
      obtain ⟨k, rfl⟩ := Nat.exists_eq_add_of_le hle
      exact (aux hm hn).symm ▸ rfl
  | inr hle =>
      obtain ⟨k, rfl⟩ := Nat.exists_eq_add_of_le hle
      exact (aux hn hm).symm ▸ rfl

/-- Every path ends. -/
theorem exists_end {r : α} (hr : r ∈ rows) :
    ∃ n, ∃ e ∈ rows, C.Links rows n (C.key r) (C.key e) ∧ C.next e = none := by
  classical
  generalize hd : rows.length - (rows.map C.key).idxOf (C.key r) = d
  induction d using Nat.strong_induction_on generalizing r with
  | h d ih =>
      cases hn : C.next r with
      | none => exact ⟨0, r, hr, rfl, hn⟩
      | some b =>
          obtain ⟨r', hr', rfl⟩ := h.closed r hr b hn
          have hlink : C.Link rows (C.key r) (C.key r') := ⟨r, hr, rfl, hn⟩
          have hlt := h.link_position hlink
          obtain ⟨hlt', -⟩ := h.getElem_position hr'
          obtain ⟨n, e, he, hlinks, hend⟩ := ih _ (by omega) hr' rfl
          exact ⟨n + 1, e, he, links_succ_left.mpr ⟨_, hlink, hlinks⟩, hend⟩

theorem links_end (hab : C.Links rows n a b) (ha : C.End rows a) : n = 0 ∧ b = a := by
  cases n with
  | zero => exact ⟨rfl, Eq.symm hab⟩
  | succ n =>
      obtain ⟨c, hac, -⟩ := links_succ_left.mp hab
      exact absurd ha (h.not_end hac)

/-- A path has one end. -/
theorem end_unique (hb : C.Links rows m a b) (hbe : C.End rows b) (hc : C.Links rows n a c)
    (hce : C.End rows c) : b = c ∧ m = n := by
  cases Nat.le_total m n with
  | inl hle =>
      obtain ⟨k, rfl⟩ := Nat.exists_eq_add_of_le hle
      obtain ⟨hk, heq⟩ := h.links_end (h.links_between hb hc) hbe
      exact ⟨heq.symm, by omega⟩
  | inr hle =>
      obtain ⟨k, rfl⟩ := Nat.exists_eq_add_of_le hle
      obtain ⟨hk, heq⟩ := h.links_end (h.links_between hc hb) hce
      exact ⟨heq, by omega⟩

omit h in
theorem nil : C.Linear [] := by
  constructor <;> simp

/-- A change that touches neither keys nor successors. -/
theorem map {f : α → α} (hkey : ∀ r, C.key (f r) = C.key r) (hnext : ∀ r, C.next (f r) = C.next r) :
    C.Linear (rows.map f) := by
  constructor
  · simpa only [List.map_map, Function.comp_def, hkey] using h.unique
  · intro y hy c hc
    obtain ⟨r, hr, rfl⟩ := List.mem_map.mp hy
    obtain ⟨r', hr', hc'⟩ := h.closed r hr c (hnext r ▸ hc)
    exact ⟨f r', List.mem_map_of_mem hr', (hkey r').trans hc'⟩
  · intro y hy y' hy' c hc hc'
    obtain ⟨r, hr, rfl⟩ := List.mem_map.mp hy
    obtain ⟨r', hr', rfl⟩ := List.mem_map.mp hy'
    rw [h.single r hr r' hr' c (hnext r ▸ hc) (hnext r' ▸ hc')]
  · refine List.pairwise_map.mpr (h.forward.imp fun hn => ?_)
    rwa [hkey, hnext]
  · intro y hy
    obtain ⟨r, hr, rfl⟩ := List.mem_map.mp hy
    rw [hkey, hnext]
    exact h.irrefl r hr

/-- A new row begins a path of its own. -/
theorem append {x : α} (hx : ∀ r ∈ rows, C.key r ≠ C.key x) (hn : C.next x = none) :
    C.Linear (rows ++ [x]) := by
  have hto : ∀ r ∈ rows, C.next r ≠ some (C.key x) := by
    intro r hr hc
    obtain ⟨r', hr', hkey⟩ := h.closed r hr _ hc
    exact hx r' hr' hkey
  have hcases : ∀ r ∈ rows ++ [x], r ∈ rows ∨ r = x := by simp
  constructor
  · rw [List.map_append, List.nodup_append]
    refine ⟨h.unique, List.nodup_singleton _, fun a ha b hb => ?_⟩
    obtain ⟨r, hr, rfl⟩ := List.mem_map.mp ha
    rw [List.mem_singleton.mp hb]
    exact hx r hr
  · intro r hr c hc
    cases hcases r hr with
    | inl hr =>
        obtain ⟨r', hr', hc'⟩ := h.closed r hr c hc
        exact ⟨r', List.mem_append_left _ hr', hc'⟩
    | inr hr => simp [hr, hn] at hc
  · intro r hr r' hr' c hc hc'
    cases hcases r hr with
    | inr hr => simp [hr, hn] at hc
    | inl hr =>
        cases hcases r' hr' with
        | inr hr' => simp [hr', hn] at hc'
        | inl hr' => exact h.single r hr r' hr' c hc hc'
  · refine List.pairwise_append.mpr ⟨h.forward, List.pairwise_singleton _ _, fun r hr y hy => ?_⟩
    simp [List.mem_singleton.mp hy, hn]
  · intro r hr
    cases hcases r hr with
    | inl hr => exact h.irrefl r hr
    | inr hr => simp [hr, hn]

/-- The last row of a path gets a successor: a new row. -/
theorem extend {f : α → α} {p x : α} (hp : p ∈ rows)
    (hx : ∀ r ∈ rows, C.key r ≠ C.key x) (hn : C.next x = none)
    (hkey : ∀ r, C.key (f r) = C.key r) (hother : ∀ r, C.key r ≠ C.key p → C.next (f r) = C.next r)
    (hlink : ∀ r, C.key r = C.key p → C.next (f r) = some (C.key x)) :
    C.Linear (rows.map f ++ [x]) := by
  have hrows := h.append hx hn
  have hto : ∀ r ∈ rows, C.next r ≠ some (C.key x) := by
    intro r hr hc
    obtain ⟨r', hr', hkey⟩ := h.closed r hr _ hc
    exact hx r' hr' hkey
  have hcases : ∀ r ∈ rows.map f ++ [x], (∃ r₀ ∈ rows, f r₀ = r) ∨ r = x := by simp
  -- the successors of the old rows are the old ones, except for the one new link
  have hnext : ∀ r ∈ rows, ∀ c, C.next (f r) = some c →
      (r = p ∧ c = C.key x) ∨ C.next r = some c := by
    intro r hr c hc
    by_cases hk : C.key r = C.key p
    · rw [hlink r hk] at hc
      exact .inl ⟨h.row_unique hr hp hk, (Option.some.inj hc).symm⟩
    · exact .inr (hother r hk ▸ hc)
  constructor
  · simpa only [List.map_append, List.map_map, Function.comp_def, hkey] using hrows.unique
  · intro y hy c hc
    cases hcases y hy with
    | inr hy => simp [hy, hn] at hc
    | inl hy =>
        obtain ⟨r, hr, rfl⟩ := hy
        cases hnext r hr c hc with
        | inl hpc => exact ⟨x, by simp, hpc.2.symm⟩
        | inr hc =>
            obtain ⟨r', hr', hc'⟩ := h.closed r hr c hc
            exact ⟨f r', List.mem_append_left _ (List.mem_map_of_mem hr'), (hkey r').trans hc'⟩
  · intro y hy y' hy' c hc hc'
    cases hcases y hy with
    | inr hy => simp [hy, hn] at hc
    | inl hy =>
        obtain ⟨r, hr, rfl⟩ := hy
        cases hcases y' hy' with
        | inr hy' => simp [hy', hn] at hc'
        | inl hy' =>
            obtain ⟨r', hr', rfl⟩ := hy'
            cases hnext r hr c hc with
            | inl hpc =>
                cases hnext r' hr' c hc' with
                | inl hpc' => rw [hpc.1, hpc'.1]
                | inr hc' => exact absurd (hpc.2 ▸ hc') (hto r' hr')
            | inr hc =>
                cases hnext r' hr' c hc' with
                | inl hpc' => exact absurd (hpc'.2 ▸ hc) (hto r hr)
                | inr hc' => rw [h.single r hr r' hr' c hc hc']
  · refine List.pairwise_append.mpr ⟨?_, List.pairwise_singleton _ _, fun r hr y hy => ?_⟩
    · refine List.pairwise_map.mpr (h.forward.imp_of_mem fun {r r'} hr hr' hne hc => ?_)
      rw [hkey] at hc
      cases hnext r' hr' _ hc with
      | inl hpc => exact hx r hr hpc.2
      | inr hc => exact hne hc
    · simp [List.mem_singleton.mp hy, hn]
  · intro y hy hc
    cases hcases y hy with
    | inr hy => simp [hy, hn] at hc
    | inl hy =>
        obtain ⟨r, hr, rfl⟩ := hy
        rw [hkey] at hc
        cases hnext r hr _ hc with
        | inl hpc => exact hx r hr hpc.2
        | inr hc => exact h.irrefl r hr hc

end Linear

variable (C) in
/-- The rows, sorted into paths from a row without predecessor to one without
successor. -/
structure Paths (rows : List α) (paths : List (List α)) : Prop where
  perm : paths.flatten.Perm rows
  nonempty : [] ∉ paths
  chain : ∀ path ∈ paths, path.IsChain fun r r' => C.next r = some (C.key r')
  root : ∀ path ∈ paths, ∀ r, path.head? = some r → ∀ p ∈ rows, C.next p ≠ some (C.key r)
  last : ∀ path ∈ paths, ∀ r, path.getLast? = some r → ∀ p ∈ rows, C.next r ≠ some (C.key p)

private theorem Paths.extend {x p : α} {front back : List (List α)} {path : List α}
    (h : C.Paths rows (front ++ path :: back)) (hlast : path.getLast? = some p)
    (hp : C.next p = some (C.key x)) (hnodup : rows.Nodup)
    (hsingle : ∀ r ∈ rows, C.next r = some (C.key x) → r = p)
    (hx : ∀ r ∈ rows ++ [x], C.next x ≠ some (C.key r)) :
    C.Paths (rows ++ [x]) (front ++ (path ++ [x]) :: back) := by
  have hpath : path ≠ [] := by
    intro hnil
    simp [hnil] at hlast
  have hperm := h.perm
  simp only [List.flatten_append, List.flatten_cons] at hperm
  have hother : ∀ q ∈ front ++ back, p ∉ q := by
    intro q hq hpq
    have hdisj := (hperm.nodup_iff.mpr hnodup)
    rw [List.nodup_append', List.nodup_append'] at hdisj
    have hpm : p ∈ path := List.mem_of_getLast? hlast
    cases List.mem_append.mp hq with
    | inl hq => exact hdisj.2.2 (List.mem_flatten.mpr ⟨q, hq, hpq⟩) (List.mem_append_left _ hpm)
    | inr hq => exact hdisj.2.1.2.2 hpm (List.mem_flatten.mpr ⟨q, hq, hpq⟩)
  have hmem : ∀ q ∈ front ++ back, q ∈ front ++ path :: back := by
    intro q hq
    simp only [List.mem_append, List.mem_cons] at hq ⊢
    tauto
  have hcases : ∀ q ∈ front ++ (path ++ [x]) :: back, q = path ++ [x] ∨ q ∈ front ++ back := by
    intro q hq
    simp only [List.mem_append, List.mem_cons] at hq ⊢
    tauto
  have hpathmem : path ∈ front ++ path :: back := by simp
  constructor
  · simp only [List.flatten_append, List.flatten_cons, List.append_assoc]
    refine List.Perm.trans ?_ (hperm.append_right [x])
    simp only [List.append_assoc]
    exact (List.perm_append_comm.append_left path).append_left _
  · intro hnil
    cases hcases [] hnil with
    | inl heq => simp at heq
    | inr hq => exact h.nonempty (hmem _ hq)
  · intro q hq
    cases hcases q hq with
    | inl heq =>
        subst heq
        refine List.isChain_append.mpr ⟨h.chain _ hpathmem, .singleton x, ?_⟩
        intro r hr y hy
        rw [Option.mem_def, hlast, Option.some.injEq] at hr
        simp only [List.head?_cons, Option.mem_def, Option.some.injEq] at hy
        rw [← hr, ← hy]
        exact hp
    | inr hq => exact h.chain q (hmem q hq)
  · intro q hq r hr
    have hr' : ∃ q' ∈ front ++ path :: back, q'.head? = some r := by
      cases hcases q hq with
      | inl heq =>
          exact ⟨path, hpathmem, by rwa [heq, List.head?_append_of_ne_nil path hpath] at hr⟩
      | inr hq => exact ⟨q, hmem q hq, hr⟩
    obtain ⟨q', hq', hr'⟩ := hr'
    have hrow : r ∈ rows :=
      h.perm.mem_iff.mp (List.mem_flatten.mpr ⟨q', hq', List.mem_of_head? hr'⟩)
    intro p' hp'
    cases List.mem_append.mp hp' with
    | inl hp' => exact h.root q' hq' r hr' p' hp'
    | inr hp' => exact List.mem_singleton.mp hp' ▸ hx r (List.mem_append_left _ hrow)
  · intro q hq r hr p' hp'
    cases hcases q hq with
    | inl heq =>
        rw [heq, List.getLast?_concat, Option.some.injEq] at hr
        exact hr ▸ hx p' hp'
    | inr hq =>
        cases List.mem_append.mp hp' with
        | inl hp' => exact h.last q (hmem q hq) r hr p' hp'
        | inr hp' =>
            intro hn
            have hrq := List.mem_of_getLast? hr
            have hrow : r ∈ rows := h.perm.mem_iff.mp (List.mem_flatten.mpr ⟨q, hmem q hq, hrq⟩)
            rw [List.mem_singleton.mp hp'] at hn
            exact hother q hq (hsingle r hrow hn ▸ hrq)

private theorem Paths.begin {x : α} {paths : List (List α)} (h : C.Paths rows paths)
    (hroot : ∀ r ∈ rows, C.next r ≠ some (C.key x))
    (hx : ∀ r ∈ rows ++ [x], C.next x ≠ some (C.key r)) :
    C.Paths (rows ++ [x]) (paths ++ [[x]]) := by
  have hrow : ∀ q ∈ paths, ∀ r ∈ q, r ∈ rows :=
    fun q hq r hr => h.perm.mem_iff.mp (List.mem_flatten.mpr ⟨q, hq, hr⟩)
  constructor
  · simpa using h.perm.append_right [x]
  · simpa using h.nonempty
  · intro q hq
    cases List.mem_append.mp hq with
    | inl hq => exact h.chain q hq
    | inr hq => exact List.mem_singleton.mp hq ▸ .singleton x
  · intro q hq r hr p hp
    cases List.mem_append.mp hq with
    | inl hq =>
        cases List.mem_append.mp hp with
        | inl hp => exact h.root q hq r hr p hp
        | inr hp =>
            exact List.mem_singleton.mp hp ▸
              hx r (List.mem_append_left _ (hrow q hq r (List.mem_of_head? hr)))
    | inr hq =>
        rw [List.mem_singleton.mp hq, List.head?_cons, Option.some.injEq] at hr
        cases List.mem_append.mp hp with
        | inl hp => exact hr ▸ hroot p hp
        | inr hp => exact List.mem_singleton.mp hp ▸ hr ▸ hx x (by simp)
  · intro q hq r hr p hp
    cases List.mem_append.mp hq with
    | inl hq =>
        cases List.mem_append.mp hp with
        | inl hp => exact h.last q hq r hr p hp
        | inr hp => exact List.mem_singleton.mp hp ▸ hroot r (hrow q hq r (List.mem_of_getLast? hr))
    | inr hq =>
        rw [List.mem_singleton.mp hq, List.getLast?_singleton, Option.some.injEq] at hr
        exact hr ▸ hx p hp

/-- Each row extends the path of its predecessor, or begins one. -/
private theorem exists_paths (hunique : (rows.map C.key).Nodup)
    (hsingle : ∀ r ∈ rows, ∀ r' ∈ rows, ∀ c, C.next r = some c → C.next r' = some c → r = r')
    (hforward : rows.Pairwise fun r r' => C.next r' ≠ some (C.key r))
    (hirrefl : ∀ r ∈ rows, C.next r ≠ some (C.key r)) : ∃ paths, C.Paths rows paths := by
  induction rows using List.reverseRecOn with
  | nil => exact ⟨[], by constructor <;> simp⟩
  | append_singleton rows x ih =>
      rw [List.map_append, List.nodup_append'] at hunique
      rw [List.pairwise_append] at hforward
      have hmem : ∀ r ∈ rows, r ∈ rows ++ [x] := fun r hr => List.mem_append_left _ hr
      have hxmem : x ∈ rows ++ [x] := by simp
      obtain ⟨paths, hpaths⟩ := ih hunique.1
        (fun r hr r' hr' => hsingle r (hmem r hr) r' (hmem r' hr')) hforward.1
        (fun r hr => hirrefl r (hmem r hr))
      have hx : ∀ r ∈ rows ++ [x], C.next x ≠ some (C.key r) := by
        intro r hr
        cases List.mem_append.mp hr with
        | inl hr => exact hforward.2.2 r hr x (by simp)
        | inr hr => exact List.mem_singleton.mp hr ▸ hirrefl x hxmem
      by_cases hroot : ∃ p ∈ rows, C.next p = some (C.key x)
      · obtain ⟨p, hp, hpx⟩ := hroot
        obtain ⟨path, hpath, hppath⟩ := List.mem_flatten.mp (hpaths.perm.mem_iff.mpr hp)
        obtain ⟨front, back, rfl⟩ := List.append_of_mem hpath
        obtain ⟨before, after, rfl⟩ := List.append_of_mem hppath
        -- `p` is the last of its path: its successor is not among the earlier rows
        have hafter : after = [] := by
          cases after with
          | nil => rfl
          | cons y after =>
              have hy : y ∈ rows := hpaths.perm.mem_iff.mp
                (List.mem_flatten.mpr ⟨_, hpath, by simp⟩)
              have hchain := (List.isChain_append_cons_cons.mp (hpaths.chain _ hpath)).2.1
              have heq : C.key x = C.key y := Option.some.inj (hpx.symm.trans hchain)
              have hkey : C.key x ∈ rows.map C.key := heq ▸ List.mem_map_of_mem hy
              exact absurd (by simp) (hunique.2.2 hkey)
        subst hafter
        exact ⟨_, hpaths.extend List.getLast?_concat hpx hunique.1.of_map
          (fun r hr hn => hsingle r (hmem r hr) p (hmem p hp) _ hn hpx) hx⟩
      · exact ⟨_, hpaths.begin (fun r hr hn => hroot ⟨r, hr, hn⟩) hx⟩

theorem Linear.exists_paths (h : C.Linear rows) : ∃ paths, C.Paths rows paths :=
  Chaining.exists_paths h.unique h.single h.forward h.irrefl

theorem Paths.mem_rows {paths : List (List α)} (hp : C.Paths rows paths) {path : List α}
    (hpath : path ∈ paths) {r : α} (hr : r ∈ path) : r ∈ rows :=
  hp.perm.mem_iff.mp (List.mem_flatten.mpr ⟨path, hpath, hr⟩)

/-- A row without successor ends its path. -/
theorem Paths.last_of_none {paths : List (List α)} (hp : C.Paths rows paths) {path : List α}
    (hpath : path ∈ paths) {r : α} (hr : r ∈ path) (hn : C.next r = none) :
    path.getLast? = some r := by
  obtain ⟨front, back, rfl⟩ := List.append_of_mem hr
  cases back with
  | nil => exact List.getLast?_concat
  | cons r' back =>
      have hlink := List.isChain_iff_forall_rel_of_append_cons_cons.mp (hp.chain _ hpath) rfl
      exact nomatch hn.symm.trans hlink

/-- What successive rows agree on, all rows of a path agree on. -/
theorem Paths.agree {β : Type} {paths : List (List α)} (hp : C.Paths rows paths) {f : α → β}
    (hf : ∀ r ∈ rows, ∀ r' ∈ rows, C.next r = some (C.key r') → f r = f r') {path : List α}
    (hpath : path ∈ paths) {r r' : α} (hr : r ∈ path) (hr' : r' ∈ path) : f r = f r' := by
  have hchain : path.IsChain fun r r' => f r = f r' :=
    (hp.chain path hpath).imp_of_mem_imp fun a b ha hb hab =>
      hf a (hp.mem_rows hpath ha) b (hp.mem_rows hpath hb) hab
  have htrans : IsTrans α fun r r' => f r = f r' := ⟨fun _ _ _ => Eq.trans⟩
  have hsymm : Std.Symm fun r r' => f r = f r' := ⟨fun _ _ => Eq.symm⟩
  exact List.Pairwise.forall_of_forall (R := fun r r' => f r = f r') (fun _ _ => rfl)
    hchain.pairwise hr hr'

end Chaining

end SecureIam.Lib
