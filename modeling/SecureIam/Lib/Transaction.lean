import Mathlib.Logic.Basic
import Mathlib.Data.List.Basic

/-!
Transactions at READ COMMITTED with row locks.

A session collects writes and sees them on top of the last committed state; each
write takes its locks first and keeps them until the session commits or rolls
back. What a session holds a lock on, no other session's commit can change.
-/
namespace SecureIam.Lib

/-- The writes of a store, the keys each of them locks, and which part of the
state a key protects. -/
structure Store where
  State : Type
  Write : Type
  Key : Type
  decEq : DecidableEq Key
  apply : Write → State → State
  keys : Write → List Key
  Same : Key → State → State → Prop
  same_refl : ∀ k s, Same k s s
  same_trans : ∀ {k s₁ s₂ s₃}, Same k s₁ s₂ → Same k s₂ s₃ → Same k s₁ s₃
  same_apply : ∀ {k w} s, k ∉ keys w → Same k s (apply w s)

namespace Store
variable (T : Store)

instance : DecidableEq T.Key := T.decEq

/-- The rows that everyone sees, and who holds which lock. -/
structure Committed where
  state : T.State
  locks : T.Key → Option Nat

variable {T}

def view (ws : List T.Write) (s : T.State) : T.State :=
  ws.foldl (fun s w => T.apply w s) s

@[simp] theorem view_nil (s : T.State) : view [] s = s := rfl

@[simp] theorem view_cons (w : T.Write) (ws : List T.Write) (s : T.State) :
    view (w :: ws) s = view ws (T.apply w s) := rfl

namespace Committed

/-- No session but `i` holds the key. -/
def Free (g : T.Committed) (i : Nat) (k : T.Key) : Prop :=
  g.locks k = none ∨ g.locks k = some i

instance (g : T.Committed) (i : Nat) (k : T.Key) : Decidable (g.Free i k) :=
  inferInstanceAs (Decidable (_ ∨ _))

def lock (g : T.Committed) (i : Nat) (ks : List T.Key) : T.Committed :=
  { g with locks := fun k => if k ∈ ks then some i else g.locks k }

def unlock (g : T.Committed) (i : Nat) : T.Key → Option Nat := fun k =>
  match g.locks k with
  | none => none
  | some j => if j = i then none else some j

/-- Add a write to session `i`, once nobody else holds one of its keys. -/
def write (g : T.Committed) (i : Nat) (w : T.Write) : Option T.Committed :=
  if ∀ k ∈ T.keys w, g.Free i k then some (g.lock i (T.keys w)) else none

def commit (g : T.Committed) (i : Nat) (ws : List T.Write) : T.Committed :=
  ⟨view ws g.state, g.unlock i⟩

def rollback (g : T.Committed) (i : Nat) : T.Committed :=
  ⟨g.state, g.unlock i⟩

end Committed

/-- Session `i` holds exactly the keys of its pending writes. -/
structure Holds (i : Nat) (ws : List T.Write) (g : T.Committed) : Prop where
  locked : ∀ w ∈ ws, ∀ k ∈ T.keys w, g.locks k = some i
  pending : ∀ k, g.locks k = some i → ∃ w ∈ ws, k ∈ T.keys w

/-- What session `j` is owed by the others: its locks stay as they are, and so
does everything that they protect. -/
structure Undisturbed (j : Nat) (g g' : T.Committed) : Prop where
  locks : ∀ k, g'.locks k = some j ↔ g.locks k = some j
  same : ∀ k, g.locks k = some j → T.Same k g.state g'.state

theorem Undisturbed.refl (j : Nat) (g : T.Committed) : Undisturbed j g g :=
  ⟨fun _ => Iff.rfl, fun k _ => T.same_refl k _⟩

theorem Undisturbed.trans {j : Nat} {g₁ g₂ g₃ : T.Committed} (h : Undisturbed j g₁ g₂)
    (h' : Undisturbed j g₂ g₃) : Undisturbed j g₁ g₃ :=
  ⟨fun k => (h'.locks k).trans (h.locks k),
    fun k hk => T.same_trans (h.same k hk) (h'.same k ((h.locks k).mpr hk))⟩

variable {i j : Nat} {ws : List T.Write} {g g' : T.Committed}

theorem Holds.undisturbed (h : Holds i ws g) (hu : Undisturbed i g g') : Holds i ws g' :=
  ⟨fun w hw k hk => (hu.locks k).mpr (h.locked w hw k hk),
    fun k hk => h.pending k ((hu.locks k).mp hk)⟩

theorem holds_nil : Holds i ([] : List T.Write) g ↔ ∀ k, g.locks k ≠ some i := by
  constructor
  · intro h k hk
    obtain ⟨w, hw, -⟩ := h.pending k hk
    simp at hw
  · intro h
    exact ⟨by simp, fun k hk => absurd hk (h k)⟩

theorem write_eq_some {w : T.Write} :
    g.write i w = some g' ↔ (∀ k ∈ T.keys w, g.Free i k) ∧ g' = g.lock i (T.keys w) := by
  by_cases h : ∀ k ∈ T.keys w, g.Free i k
  · rw [Committed.write, if_pos h, Option.some.injEq, eq_comm]
    exact ⟨fun hg => ⟨h, hg⟩, fun hg => hg.2⟩
  · rw [Committed.write, if_neg h]
    exact ⟨fun hg => (nomatch hg), fun hg => absurd hg.1 h⟩

theorem Holds.write {w : T.Write} (h : Holds i ws g) (hw : g.write i w = some g') :
    Holds i (ws ++ [w]) g' := by
  obtain ⟨-, rfl⟩ := write_eq_some.mp hw
  refine ⟨fun v hv k hk => ?_, fun k hk => ?_⟩
  · simp only [Committed.lock]
    split
    · rfl
    · rename_i hnot
      simp only [List.mem_append, List.mem_singleton] at hv
      rcases hv with hv | rfl
      · exact h.locked v hv k hk
      · exact absurd hk hnot
  · simp only [Committed.lock] at hk
    split at hk
    · exact ⟨w, by simp, by assumption⟩
    · obtain ⟨v, hv, hkv⟩ := h.pending k hk
      exact ⟨v, by simp [hv], hkv⟩

theorem undisturbed_write {w : T.Write} (hij : i ≠ j) (hw : g.write i w = some g') :
    Undisturbed j g g' := by
  obtain ⟨hfree, rfl⟩ := write_eq_some.mp hw
  refine ⟨fun k => ?_, fun k _ => T.same_refl k _⟩
  simp only [Committed.lock]
  split
  · rename_i hk
    rcases hfree k hk with h | h <;> simp [h, hij]
  · rfl

theorem unlock_eq_some {k : T.Key} :
    g.unlock i k = some j ↔ g.locks k = some j ∧ j ≠ i := by
  simp only [Committed.unlock]
  cases h : g.locks k with
  | none => simp
  | some m =>
      by_cases hm : m = i
      · subst hm; simp only [if_true, Option.some.injEq, reduceCtorEq, false_iff]; tauto
      · simp only [hm, if_false, Option.some.injEq]
        constructor
        · rintro rfl; exact ⟨rfl, hm⟩
        · exact fun h => h.1

theorem holds_unlocked (s : T.State) : Holds i ([] : List T.Write) ⟨s, g.unlock i⟩ := by
  refine holds_nil.mpr fun k hk => ?_
  exact (unlock_eq_some.mp hk).2 rfl

/-- Writes that lock nothing of `k` leave what `k` protects alone. -/
theorem same_view {k : T.Key} (s : T.State) (h : ∀ w ∈ ws, k ∉ T.keys w) :
    T.Same k s (view ws s) := by
  induction ws generalizing s with
  | nil => exact T.same_refl k s
  | cons w ws ih =>
      have hw := T.same_apply s (h w (by simp))
      exact T.same_trans hw (ih _ fun v hv => h v (by simp [hv]))

theorem undisturbed_commit (hij : i ≠ j) (h : Holds i ws g) : Undisturbed j g (g.commit i ws) := by
  refine ⟨fun k => ?_, fun k hk => same_view _ fun w hw hkw => ?_⟩
  · simp only [Committed.commit, unlock_eq_some]
    exact ⟨fun h => h.1, fun h => ⟨h, hij.symm⟩⟩
  · have := h.locked w hw k hkw
    rw [hk] at this
    exact hij (Option.some.inj this).symm

theorem undisturbed_rollback (hij : i ≠ j) : Undisturbed j g (g.rollback i) := by
  refine ⟨fun k => ?_, fun k _ => T.same_refl k _⟩
  simp only [Committed.rollback, unlock_eq_some]
  exact ⟨fun h => h.1, fun h => ⟨h, hij.symm⟩⟩

theorem view_append (ws vs : List T.Write) (s : T.State) :
    view (ws ++ vs) s = view vs (view ws s) :=
  List.foldl_append

end Store

/-- Integrity constraints. `Ok` is what a session checks of a write in its own
view; `Lasts` is what no write ever takes away, so that others may rely on it. -/
structure Constraints (T : Store) where
  Good : T.State → Prop
  Ok : T.Write → T.State → Prop
  Lasts : T.State → T.State → Prop
  lasts_refl : ∀ s, Lasts s s
  lasts_trans : ∀ {s₁ s₂ s₃}, Lasts s₁ s₂ → Lasts s₂ s₃ → Lasts s₁ s₃
  lasts_apply : ∀ w s, Lasts s (T.apply w s)
  lasts_congr : ∀ {s s'} w, Lasts s s' → Lasts (T.apply w s) (T.apply w s')
  same_congr : ∀ {k s s'} w, T.Same k s s' → T.Same k (T.apply w s) (T.apply w s')
  good_apply : ∀ {w s}, Good s → Ok w s → Good (T.apply w s)
  ok_stable : ∀ {w s s'}, (∀ k ∈ T.keys w, T.Same k s s') → Lasts s s' → Ok w s → Ok w s'

namespace Constraints
open Store
variable {T : Store} {C : Constraints T} {i j : Nat} {ws : List T.Write} {g g' : T.Committed}

variable (C) in
/-- Each write was checked in the view that it was issued in. -/
def Valid : List T.Write → T.State → Prop
  | [], _ => True
  | w :: ws, s => C.Ok w s ∧ Valid ws (T.apply w s)

theorem valid_append {ws vs : List T.Write} {s : T.State} :
    C.Valid (ws ++ vs) s ↔ C.Valid ws s ∧ C.Valid vs (view ws s) := by
  induction ws generalizing s with
  | nil => simp [Valid]
  | cons w ws ih => simp only [List.cons_append, Valid, view_cons, ih, and_assoc]

theorem Valid.good {s : T.State} (h : C.Valid ws s) (hs : C.Good s) : C.Good (view ws s) := by
  induction ws generalizing s with
  | nil => exact hs
  | cons w ws ih => exact ih h.2 (C.good_apply hs h.1)

theorem lasts_view (ws : List T.Write) (s : T.State) : C.Lasts s (view ws s) := by
  induction ws generalizing s with
  | nil => exact C.lasts_refl s
  | cons w ws ih => exact C.lasts_trans (C.lasts_apply w s) (ih _)

/-- Checks that passed stay passed while the keys they locked are untouched. -/
theorem Valid.stable {s s' : T.State} (h : C.Valid ws s)
    (hsame : ∀ w ∈ ws, ∀ k ∈ T.keys w, T.Same k s s') (hlasts : C.Lasts s s') :
    C.Valid ws s' := by
  induction ws generalizing s s' with
  | nil => trivial
  | cons w ws ih =>
      refine ⟨C.ok_stable (hsame w (by simp)) hlasts h.1, ih h.2 ?_ (C.lasts_congr w hlasts)⟩
      intro v hv k hk
      exact C.same_congr w (hsame v (by simp [hv]) k hk)

variable (C) in
/-- A transaction of checked writes of one kind, committed. -/
def Published (N : T.Write → Prop) (s s' : T.State) : Prop :=
  ∃ ws, (∀ w ∈ ws, N w) ∧ C.Valid ws s ∧ s' = view ws s

theorem Published.refl (N : T.Write → Prop) (s : T.State) : C.Published N s s :=
  ⟨[], by simp, trivial, rfl⟩

/-- What each write of the kind does, a transaction of them does. -/
theorem Published.across {N : T.Write → Prop} {E : T.State → T.State → Prop} {s s' : T.State}
    (h : C.Published N s s') (hs : C.Good s) (refl : ∀ s, E s s)
    (trans : ∀ {s₁ s₂ s₃}, E s₁ s₂ → E s₂ s₃ → E s₁ s₃)
    (hE : ∀ w s, C.Good s → C.Ok w s → N w → E s (T.apply w s)) : E s s' := by
  obtain ⟨ws, hN, hvalid, rfl⟩ := h
  induction ws generalizing s with
  | nil => exact refl s
  | cons w ws ih =>
      have hw := hE w s hs hvalid.1 (hN w List.mem_cons_self)
      exact trans hw (ih (C.good_apply hs hvalid.1) (fun v hv => hN v (List.mem_cons_of_mem w hv))
        hvalid.2)

variable (C) in
/-- What a session may assume of its own writes at any time. -/
structure Open (i : Nat) (ws : List T.Write) (g : T.Committed) : Prop where
  holds : Holds i ws g
  valid : C.Valid ws g.state

variable (C) in
/-- What the other sessions may do to session `j`. -/
structure Allowed (j : Nat) (g g' : T.Committed) : Prop where
  undisturbed : Undisturbed j g g'
  lasts : C.Lasts g.state g'.state

theorem Allowed.refl (j : Nat) (g : T.Committed) : C.Allowed j g g :=
  ⟨.refl j g, C.lasts_refl _⟩

theorem Allowed.trans {g₁ g₂ g₃ : T.Committed} (h : C.Allowed j g₁ g₂) (h' : C.Allowed j g₂ g₃) :
    C.Allowed j g₁ g₃ :=
  ⟨h.undisturbed.trans h'.undisturbed, C.lasts_trans h.lasts h'.lasts⟩

theorem Open.allowed (h : C.Open i ws g) (ha : C.Allowed i g g') : C.Open i ws g' :=
  ⟨h.holds.undisturbed ha.undisturbed,
    h.valid.stable (fun w hw k hk => ha.undisturbed.same k (h.holds.locked w hw k hk)) ha.lasts⟩

theorem open_nil (h : ∀ k, g.locks k ≠ some i) : C.Open i [] g :=
  ⟨holds_nil.mpr h, trivial⟩

theorem open_unlocked (s : T.State) : C.Open i [] ⟨s, g.unlock i⟩ :=
  ⟨holds_unlocked s, trivial⟩

theorem Open.write {w : T.Write} (h : C.Open i ws g) (hw : g.write i w = some g')
    (hok : C.Ok w (view ws g.state)) : C.Open i (ws ++ [w]) g' := by
  refine ⟨h.holds.write hw, valid_append.mpr ⟨?_, ?_, trivial⟩⟩
  all_goals obtain ⟨-, rfl⟩ := write_eq_some.mp hw
  · exact h.valid
  · exact hok

theorem allowed_write {w : T.Write} (hij : i ≠ j) (hw : g.write i w = some g') :
    C.Allowed j g g' := by
  refine ⟨undisturbed_write hij hw, ?_⟩
  obtain ⟨-, rfl⟩ := write_eq_some.mp hw
  exact C.lasts_refl _

theorem allowed_commit (hij : i ≠ j) (h : C.Open i ws g) : C.Allowed j g (g.commit i ws) :=
  ⟨undisturbed_commit hij h.holds, lasts_view ws _⟩

theorem allowed_rollback (hij : i ≠ j) : C.Allowed j g (g.rollback i) :=
  ⟨undisturbed_rollback hij, C.lasts_refl _⟩

theorem Open.good_commit (h : C.Open i ws g) (hg : C.Good g.state) :
    C.Good (g.commit i ws).state :=
  h.valid.good hg

end Constraints

end SecureIam.Lib
