import Mathlib.Data.List.Sort

/-!
Reading a list page by page in descending order of a key. Each page is cut from a sorted
permutation of its own, so equal keys may stand in another order on each page.
-/
namespace SecureIam.Lib
variable {α β : Type} [LinearOrder β] {key : α → β} {l l' m : List α}

/-- One admissible answer to a query that asks for the rows of `m` in descending order. -/
structure Ordering (key : α → β) (m l : List α) : Prop where
  perm : l.Perm m
  sorted : l.Pairwise fun a b => key b ≤ key a

/-- No two rows with one key stand on the two sides of the `n`-th place. -/
def Untied (key : α → β) (m : List α) (n : Nat) : Prop :=
  ∀ c, n ≤ m.countP (fun a => c < key a) ∨ m.countP (fun a => c ≤ key a) ≤ n

theorem sorted_split (h : l.Pairwise fun a b => key b ≤ key a) (c : β) :
    l.filter (fun a => c < key a) ++ (l.filter (fun a => key a = c) ++ l.filter
      (fun a => key a < c)) = l := by
  induction l with
  | nil => rfl
  | cons a l ih =>
      obtain ⟨hhead, htail⟩ := List.pairwise_cons.mp h
      have ih := ih htail
      have hnone : ∀ {p : α → Bool}, (∀ b ∈ l, ¬ p b) → l.filter p = [] :=
        List.filter_eq_nil_iff.mpr
      cases lt_trichotomy (key a) c with
      | inl hlt =>
          have habove : l.filter (fun b => c < key b) = [] :=
            hnone fun b hb => by simpa using (hhead b hb).trans hlt.le
          have hequal : l.filter (fun b => key b = c) = [] :=
            hnone fun b hb => by simpa using ((hhead b hb).trans_lt hlt).ne
          simp only [habove, hequal, List.nil_append] at ih
          simp [habove, hequal, hlt, hlt.le, hlt.ne, ih]
      | inr hge =>
          cases hge with
          | inl heq =>
              have habove : l.filter (fun b => c < key b) = [] :=
                hnone fun b hb => by simpa [heq] using hhead b hb
              simp only [habove, List.nil_append] at ih
              simp [habove, heq, ih]
          | inr hgt => simp [hgt, hgt.ne', hgt.le, ih]

theorem take_eq_append (h : l.Pairwise fun a b => key b ≤ key a) (c : β) {j : Nat}
    (hj : j ≤ (l.filter fun a => key a = c).length) :
    l.take (l.countP (fun a => c < key a) + j) =
      l.filter (fun a => c < key a) ++ (l.filter fun a => key a = c).take j := by
  conv_lhs => enter [2]; rw [← sorted_split h c]
  rw [List.countP_eq_length_filter, List.take_length_add_append, List.take_append_of_le_length hj]

theorem key_le_of_mem_take (h : l.Pairwise fun a b => key b ≤ key a) {n : Nat} (hn : n < l.length)
    {a : α} (ha : a ∈ l.take (n + 1)) : key l[n] ≤ key a := by
  obtain ⟨i, hi, rfl⟩ := List.mem_take_iff_getElem.mp ha
  have hle : i ≤ n := by omega
  cases hle.eq_or_lt with
  | inl heq => simp [heq]
  | inr hlt => exact List.pairwise_iff_getElem.mp h i n _ _ hlt

theorem countP_above_le (h : l.Pairwise fun a b => key b ≤ key a) {n : Nat} (hn : n < l.length) :
    l.countP (fun a => key l[n] < key a) ≤ n := by
  have hbelow : ∀ a ∈ l.drop n, key a ≤ key l[n] := by
    intro a ha
    obtain ⟨i, hi, rfl⟩ := List.mem_drop_iff_getElem.mp ha
    cases i with
    | zero => simp
    | succ i => exact List.pairwise_iff_getElem.mp h n (n + (i + 1)) _ _ (by omega)
  have hnone : (l.drop n).countP (fun a => key l[n] < key a) = 0 := by simpa using hbelow
  have hsplit : (l.take n ++ l.drop n).countP (fun a => key l[n] < key a) =
      (l.take n).countP (fun a => key l[n] < key a) + (l.drop n).countP
      (fun a => key l[n] < key a) :=
    List.countP_append
  rw [List.take_append_drop, hnone, Nat.add_zero] at hsplit
  rw [hsplit]
  exact List.countP_le_length.trans (List.length_take_le n l)

namespace Ordering

theorem keys_sorted (h : Ordering key m l) : (l.map key).Pairwise (· ≥ ·) :=
    List.pairwise_map.mpr h.sorted

theorem keys_eq (h : Ordering key m l) (h' : Ordering key m l') : l.map key = l'.map key :=
  List.Perm.eq_of_pairwise' h.keys_sorted h'.keys_sorted ((h.perm.trans h'.perm.symm).map key)

/-- The rows before a place that splits no tie are those with a key as great as the last of them. -/
theorem take_eq_filter (h : Ordering key m l) {n : Nat} (hlt : n < l.length)
    (hn : Untied key m (n + 1)) : l.take (n + 1) = l.filter fun a => key l[n] ≤ key a := by
  have hfilter : (l.take (n + 1)).filter (fun a => key l[n] ≤ key a) = l.take (n + 1) :=
    List.filter_eq_self.mpr fun a ha => by simpa using key_le_of_mem_take h.sorted hlt ha
  have hsub := (List.take_sublist (n + 1) l).filter fun a => key l[n] ≤ key a
  rw [hfilter] at hsub
  refine hsub.eq_of_length_le ?_
  have habove := countP_above_le h.sorted hlt
  have hcount := hn (key l[n])
  rw [← h.perm.countP_eq, ← h.perm.countP_eq] at hcount
  rw [← List.countP_eq_length_filter, List.length_take]
  omega

/-- Up to a place that splits no tie, every order has the same rows. -/
theorem take_perm (h : Ordering key m l) (h' : Ordering key m l') {n : Nat} (hn : Untied key m n) :
    (l.take n).Perm (l'.take n) := by
  have hlength := h.perm.length_eq.trans h'.perm.length_eq.symm
  have hperm := h.perm.trans h'.perm.symm
  cases n with
  | zero => exact .refl _
  | succ n =>
      by_cases hlt : n < l.length
      · have hlt' : n < l'.length := hlength ▸ hlt
        have hkey : key l[n] = key l'[n] := by
          have hkeys := congrArg (·[n]?) (h.keys_eq h')
          simpa [hlt, hlt'] using hkeys
        rw [h.take_eq_filter hlt hn, h'.take_eq_filter hlt' hn, hkey]
        exact hperm.filter _
      · rw [List.take_of_length_le (by omega), List.take_of_length_le (by omega)]
        exact hperm

end Ordering

def pageAt (limit k : Nat) (l : List α) : List α := (l.drop (k * limit)).take limit

theorem map_pageAt {γ : Type} (f : α → γ) (limit k : Nat) (l : List α) :
    (pageAt limit k l).map f = pageAt limit k (l.map f) := by
  rw [pageAt, pageAt, List.map_take, List.map_drop]

theorem take_append_pageAt (limit k : Nat) (l : List α) :
    l.take (k * limit) ++ pageAt limit k l = l.take ((k + 1) * limit) := by
  rw [pageAt, ← List.take_add, Nat.succ_mul]

/-- The pages of one list put together. -/
theorem flatMap_pageAt (limit n : Nat) (l : List α) :
    ((List.range n).flatMap fun k => pageAt limit k l) = l.take (n * limit) := by
  induction n with
  | zero => simp
  | succ n ih =>
      rw [List.range_succ, List.flatMap_append, ih, List.flatMap_singleton]
      exact take_append_pageAt limit n l

section Pages
variable {orders : Nat → List α}

/-- The keys come out in descending order, whatever order each page takes. -/
theorem pages_keys (limit : Nat) (h : ∀ k, Ordering key m (orders k)) (n : Nat) :
    ((List.range n).flatMap fun k => pageAt limit k (orders k)).map key =
      ((orders 0).map key).take (n * limit) := by
  have hsame : ∀ k, (pageAt limit k (orders k)).map key = pageAt limit k ((orders 0).map key) := by
    intro k
    rw [map_pageAt, (h k).keys_eq (h 0)]
  simp only [List.map_flatMap, hsame]
  exact flatMap_pageAt limit n _

theorem pages_perm (limit : Nat) (h : ∀ k, Ordering key m (orders k))
    (hties : ∀ k, Untied key m (k * limit)) (n : Nat) :
    ((List.range n).flatMap fun k => pageAt limit k (orders k)).Perm
      ((orders 0).take (n * limit)) := by
  induction n with
  | zero => simp
  | succ n ih =>
      have hnext := (h n).take_perm (h 0) (hties (n + 1))
      have hsame := (h 0).take_perm (h n) (hties n)
      rw [List.range_succ, List.flatMap_append, List.flatMap_singleton]
      refine ((ih.trans hsame).append_right _).trans ?_
      rw [take_append_pageAt]
      exact hnext

/-- If the order changes between two pages, the pages still partition the rows only if both
orders have the same rows before the change. -/
theorem take_perm_of_pages {limit c n : Nat} (hc : c ≤ n) (hlong : l'.length ≤ n * limit)
    (h : ((List.range n).flatMap fun k => pageAt limit k (if k < c then l else l')).Perm l') :
    (l.take (c * limit)).Perm (l'.take (c * limit)) := by
  obtain ⟨d, rfl⟩ := Nat.exists_eq_add_of_le hc
  have split : ∀ l : List α, ((List.range (c + d)).flatMap fun k =>
    pageAt limit k (if k < c then l else l')) =
      l.take (c * limit) ++ (List.range d).flatMap fun k => pageAt limit (c + k) l' := by
    intro l
    rw [List.range_add, List.flatMap_append, List.flatMap_map, ← flatMap_pageAt]
    congr 1
    · exact List.flatMap_congr fun k hk => by rw [if_pos (List.mem_range.mp hk)]
    · exact List.flatMap_congr fun k _ => by rw [if_neg (by omega)]
  have hall := split l'
  simp only [ite_self, flatMap_pageAt, List.take_of_length_le hlong] at hall
  rw [split] at h
  exact (List.perm_append_right_iff _).mp (h.trans (.of_eq hall))

theorem ordering_insertionSort (key : α → β) (m : List α) :
    Ordering key m (m.insertionSort fun a b => key b ≤ key a) where
  perm := List.perm_insertionSort _ _
  sorted := by
    have : Std.Total fun a b : α => key b ≤ key a := ⟨fun a b => le_total _ _⟩
    have : IsTrans α fun a b => key b ≤ key a := ⟨fun a b c hab hbc => hbc.trans hab⟩
    exact List.pairwise_insertionSort _ _

/-- The sort keeps rows with one key in the order in which it found them. -/
theorem filter_insertionSort (key : α → β) (m : List α) (c : β) :
    (m.insertionSort fun a b => key b ≤ key a).filter (fun a => key a = c) = m.filter fun a =>
      key a = c := by
  have hequal : (m.filter fun a => key a = c).Pairwise fun a b => key b ≤ key a := by
    refine List.pairwise_of_forall_mem_list fun a ha b hb => ?_
    simp only [List.mem_filter, decide_eq_true_eq] at ha hb
    exact (hb.2.trans ha.2.symm).le
  have : Std.Total fun a b : α => key b ≤ key a := ⟨fun a b => le_total _ _⟩
  have : IsTrans α fun a b => key b ≤ key a := ⟨fun a b c hab hbc => hbc.trans hab⟩
  have hsub := (List.sublist_insertionSort hequal List.filter_sublist).filter fun a => key a = c
  rw [List.filter_filter] at hsub
  simp only [Bool.and_self] at hsub
  exact (hsub.eq_of_length ((List.perm_insertionSort _ m).filter _).length_eq.symm).symm

theorem countP_le_eq (m : List α) (c : β) : m.countP (fun a => c ≤ key a) =
    m.countP (fun a => c < key a) + (m.filter fun a => key a = c).length := by
  rw [← List.countP_eq_length_filter]
  induction m with
  | nil => rfl
  | cons a m ih =>
      simp only [List.countP_cons, ih]
      cases lt_trichotomy c (key a) with
      | inl hlt =>
          simp only [hlt, hlt.le, hlt.ne', decide_true, decide_false, if_true, Bool.false_eq_true,
            if_false]
          omega
      | inr hge =>
          cases hge with
          | inl heq =>
              simp only [heq, le_refl, lt_irrefl, decide_true, decide_false, if_true,
                Bool.false_eq_true, if_false]
              omega
          | inr hgt => simp [hgt.ne, hgt.not_ge, hgt.not_gt]

/-- A tie across a place: sorting the rows forwards and backwards brings different rows before
it. -/
theorem not_take_perm_of_tied (hm : m.Nodup) {n : Nat} (h : ¬ Untied key m n) :
    ¬ ((m.insertionSort fun a b => key b ≤ key a).take n).Perm
      ((m.reverse.insertionSort fun a b => key b ≤ key a).take n) := by
  intro hperm
  obtain ⟨c, hc⟩ := not_forall.mp h
  obtain ⟨habove, hbelow⟩ := not_or.mp hc
  rw [countP_le_eq] at hbelow
  obtain ⟨j, rfl⟩ := Nat.exists_eq_add_of_lt (not_le.mp habove)
  have forwards := ordering_insertionSort key m
  have backwards := ordering_insertionSort key m.reverse
  cases hties : m.filter fun a => key a = c with
  | nil =>
      rw [hties, List.length_nil] at hbelow
      omega
  | cons g tail =>
      have hj : j + 1 ≤ tail.length := by
        rw [hties, List.length_cons] at hbelow
        omega
      have hfirst := take_eq_append (j := j + 1) forwards.sorted c (by
        rw [filter_insertionSort, hties]
        exact hj.trans (Nat.le_succ _))
      have hlast := take_eq_append (j := j + 1) backwards.sorted c (by
        rw [filter_insertionSort, List.filter_reverse, hties, List.length_reverse]
        exact hj.trans (Nat.le_succ _))
      rw [forwards.perm.countP_eq, filter_insertionSort, hties] at hfirst
      rw [backwards.perm.countP_eq, (List.reverse_perm m).countP_eq, filter_insertionSort,
        List.filter_reverse,
        hties, List.reverse_cons, List.take_append_of_le_length (by simpa using hj)] at hlast
      rw [Nat.add_assoc, hfirst, hlast] at hperm
      have hg : key g = c := by
        have hmem : g ∈ m.filter fun a => key a = c := hties ▸ List.mem_cons_self
        simpa using (List.mem_filter.mp hmem).2
      have hmem := hperm.mem_iff.mp (List.mem_append_right _ List.mem_cons_self)
      have hnodup : (g :: tail).Nodup := hties ▸ hm.filter _
      cases List.mem_append.mp hmem with
      | inl hmem => simp [hg] at hmem
      | inr hmem =>
          exact (List.nodup_cons.mp hnodup).1 (List.mem_reverse.mp (List.mem_of_mem_take hmem))

end Pages

/-! A list that grows while its pages are read. -/

/-- Sorting by the key leaves rows of one key in their order. -/
theorem pairwise_insertionSort_ties {before : α → α → Prop} (m : List α)
    (h : m.Pairwise fun a b => key a = key b → before a b) :
    (m.insertionSort fun a b => key b ≤ key a).Pairwise fun a b =>
      key b ≤ key a ∧ (key a = key b → before a b) := by
  refine (ordering_insertionSort key m).sorted.and
    (List.pairwise_iff_forall_sublist.mpr fun {a b} hsub htie => ?_)
  have hfilter := hsub.filter fun x => key x = key b
  rw [filter_insertionSort] at hfilter
  simp only [htie, decide_true, List.filter_cons_of_pos, List.filter_nil] at hfilter
  exact List.pairwise_iff_forall_sublist.mp h (hfilter.trans List.filter_sublist) htie

section Growing
variable [DecidableEq α] {R : α → α → Prop} {x : α} {limit k : Nat}

theorem idxOf_le_of_sublist (h : l.Sublist l') (hn : l'.Nodup) (hx : x ∈ l) :
    l.idxOf x ≤ l'.idxOf x := by
  induction h with
  | slnil => cases hx
  | @cons l l' a hsub ih =>
      obtain ⟨ha, hn⟩ := List.nodup_cons.mp hn
      have hne : a ≠ x := fun heq => ha (heq ▸ hsub.subset hx)
      rw [List.idxOf_cons_ne _ hne]
      exact (ih hn hx).trans (Nat.le_succ _)
  | @cons_cons l l' a hsub ih =>
      by_cases heq : a = x
      · rw [heq, List.idxOf_cons_self]
        exact Nat.zero_le _
      · rw [List.idxOf_cons_ne _ heq, List.idxOf_cons_ne _ heq]
        exact Nat.succ_le_succ (ih (List.nodup_cons.mp hn).2
          ((List.mem_cons.mp hx).resolve_left (Ne.symm heq)))

/-- In an order without choice, a larger list contains a smaller one in its order. -/
theorem sublist_of_pairwise (hR : ∀ a b, R a b → R b a → a = b) (h : l.Pairwise R)
    (h' : l'.Pairwise R) (hn : l.Nodup) (hn' : l'.Nodup) (hsub : l ⊆ l') : l.Sublist l' := by
  have hperm : l.Perm (l'.filter (· ∈ l)) := by
    refine (List.perm_ext_iff_of_nodup hn (hn'.filter _)).mpr fun a => ?_
    simp only [List.mem_filter, decide_eq_true_eq]
    exact ⟨fun ha => ⟨hsub ha, ha⟩, fun ha => ha.2⟩
  have heq : l = l'.filter (· ∈ l) := hperm.eq_of_pairwise (fun a b _ _ => hR a b) h (h'.filter _)
  rw [heq]
  exact List.filter_sublist

theorem mem_pageAt (hx : x ∈ l) (hlo : k * limit ≤ l.idxOf x) (hhi : l.idxOf x < (k + 1) * limit) :
    x ∈ pageAt limit k l := by
  have hlt := List.idxOf_lt_length_of_mem hx
  have hplace : ((l.drop (k * limit)).take limit)[l.idxOf x - k * limit]? = some x := by
    rw [List.getElem?_take_of_lt (by rw [Nat.succ_mul] at hhi; omega), List.getElem?_drop,
      Nat.add_sub_cancel' hlo, List.getElem?_eq_getElem hlt, List.getElem_idxOf hlt]
  exact List.mem_of_getElem? hplace

/-- A page that a row lies behind is full. -/
theorem length_pageAt (hx : x ∈ l) (hbehind : (k + 1) * limit ≤ l.idxOf x) :
    (pageAt limit k l).length = limit := by
  have hlt := List.idxOf_lt_length_of_mem hx
  rw [Nat.succ_mul] at hbehind
  rw [pageAt, List.length_take, List.length_drop]
  omega

/-- A row in front of which no page begins that has not been read is on the page, or lies
behind it. -/
theorem read_or_behind (hx : x ∈ l) (hlo : k * limit ≤ l.idxOf x) :
    x ∈ pageAt limit k l ∨ ((k + 1) * limit ≤ l.idxOf x ∧ (pageAt limit k l).length = limit) := by
  cases Nat.lt_or_ge (l.idxOf x) ((k + 1) * limit) with
  | inl hhi => exact .inl (mem_pageAt hx hlo hhi)
  | inr hbehind => exact .inr ⟨hbehind, length_pageAt hx hbehind⟩

/-- In the order `R`, the row `x` of `m` stands at place `n` or behind it. -/
def Behind (R : α → α → Prop) (m : List α) (x : α) (n : Nat) : Prop :=
  ∃ l : List α, l.Perm m ∧ l.Pairwise R ∧ x ∈ l ∧ n ≤ l.idxOf x

/-- Rows that are added move a row only further behind, so that no page skips it. -/
theorem Behind.read (hR : ∀ a b, R a b → R b a → a = b) (h : Behind R m x (k * limit)) {m' : List α}
    (hm : m.Sublist m') (hn : m'.Nodup) (hl' : l'.Perm m') (hordered : l'.Pairwise R) :
    x ∈ pageAt limit k l' ∨ (Behind R m' x ((k + 1) * limit) ∧ (pageAt limit k l').length =
      limit) := by
  obtain ⟨l, hl, hl_ordered, hx, hlo⟩ := h
  have hnodup' := hl'.nodup_iff.mpr hn
  have hnodup := hl.nodup_iff.mpr (hn.sublist hm)
  have hsub : l ⊆ l' := fun a ha => hl'.mem_iff.mpr (hm.subset (hl.mem_iff.mp ha))
  have hsublist := sublist_of_pairwise hR hl_ordered hordered hnodup hnodup' hsub
  have hplace := hlo.trans (idxOf_le_of_sublist hsublist hnodup' hx)
  refine (read_or_behind (hsub hx) hplace).imp_right fun hbehind => ?_
  exact ⟨⟨l', hl', hordered, hsub hx, hbehind.1⟩, hbehind.2⟩

end Growing

end SecureIam.Lib
