import SecureIam.Lib.Protocol

/-!
Disciplines: what a program may issue next, given what it has issued so far.

A discipline is an automaton over statements and their results. A program follows it
when each of its statements is allowed where it is issued, whatever expected results it
has got. Threads that cannot be stopped while they hold something never get stuck.
-/
namespace SecureIam.Lib
variable {S : Signature} {ρ ε ε' α β : Type} {M : Machine S}

structure Discipline (S : Signature) where
  State : Type
  idle : State
  may : State → S.Op → Prop
  sees : State → (o : S.Op) → S.Res o → Prop
  next : State → (o : S.Op) → S.Res o → State

namespace Discipline
variable {D : Discipline S} {Q Q' : Except ε α → D.State → Prop} {σ : D.State}

variable (D) in
def Follows (Q : Except ε α → D.State → Prop) : Program S ε α → D.State → Prop
  | .ret a, σ => Q (.ok a) σ
  | .raise e, σ => Q (.error e) σ
  | .op o k, σ => D.may σ o ∧ ∀ r, D.sees σ o r → Follows Q (k r) (D.next σ o r)

theorem Follows.mono {p : Program S ε α} (h : D.Follows Q p σ) (hQ : ∀ out σ, Q out σ → Q' out σ) :
    D.Follows Q' p σ := by
  induction p generalizing σ with
  | ret a | raise e => exact hQ _ _ h
  | op o k ih => exact ⟨h.1, fun r hr => ih r (h.2 r hr)⟩

theorem follows_bind {p : Program S ε α} {f : α → Program S ε β} {Q : Except ε β → D.State → Prop}
    (h : D.Follows (fun out σ => match out with
      | .ok a => D.Follows Q (f a) σ
      | .error e => Q (.error e) σ) p σ) : D.Follows Q (p.bind f) σ := by
  induction p generalizing σ with
  | ret a | raise e => exact h
  | op o k ih => exact ⟨h.1, fun r hr => ih r (h.2 r hr)⟩

theorem follows_attempt {p : Program S ε α} {Q : Except ε' (Except ε α) → D.State → Prop}
    (h : D.Follows (fun out σ => Q (.ok out) σ) p σ) : D.Follows Q p.attempt σ := by
  induction p generalizing σ with
  | ret a | raise e => exact h
  | op o k ih => exact ⟨h.1, fun r hr => ih r (h.2 r hr)⟩

theorem follows_handle {p : Program S ε α} {g : ε → Program S ε α}
    (h : D.Follows (fun out σ => match out with
      | .ok a => Q (.ok a) σ
      | .error e => D.Follows Q (g e) σ) p σ) : D.Follows Q (p.handle g) σ := by
  refine follows_bind (follows_attempt (h.mono fun out σ h => ?_))
  cases out with
  | error e => exact h
  | ok a => exact h

theorem follows_ensure {p : Program S ε α} {q : Program S ε Unit}
    (h : D.Follows (fun out σ => D.Follows (fun stop σ => match stop with
      | .ok _ => Q out σ
      | .error e => Q (.error e) σ) q σ) p σ) : D.Follows Q (p.ensure q) σ := by
  refine follows_bind (follows_attempt (h.mono fun out σ h => ?_))
  refine follows_bind (h.mono fun stop σ h => ?_)
  cases stop with
  | error e => exact h
  | ok _ => cases out <;> exact h

end Discipline

/-- How threads that keep a protocol stand to a discipline: `fits` ties its states to
theirs, and `holds` says which of them others may have to wait for. -/
structure Bond (P : Protocol M ρ) (D : Discipline S) where
  fits : D.State → Nat → M.Local → World M ρ → Prop
  holds : Nat → World M ρ → Prop
  start : ∀ {i w}, (∀ e ∈ w.trace, e.pid ≠ i) → fits D.idle i M.start w
  rely : ∀ {σ i l w w'}, fits σ i l w → P.rely i w w' → fits σ i l w'
  exec : ∀ {σ i req o l l' w w'} {r : S.Res o}, fits σ i l w → P.inv w → P.loc i l w → D.may σ o →
    w.exec i req o l = some (r, w', l') → D.sees σ o r ∧ fits (D.next σ o r) i l' w'
  free : ∀ {i l w}, fits D.idle i l w → P.inv w → P.loc i l w → ¬ holds i w
  rely_holds : ∀ {i w w'}, P.rely i w w' → holds i w' → holds i w
  owner : ∀ {i w}, P.inv w → holds i w → ∃ e ∈ w.trace, e.pid = i
  unblocked : ∀ {σ i o l w} req, fits σ i l w → P.inv w → P.loc i l w → D.may σ o →
    holds i w ∨ (∀ j, j ≠ i → ¬ holds j w) → ∃ x, w.exec i req o l = some x

namespace Bond
variable {P : Protocol M ρ} {D : Discipline S} {B : Bond P D} {N : ρ → Nat → Protocol.Post M ρ ε α}
  {E : ρ → Except ε α → D.State → Prop} {prog : ρ → Program S ε α} {p p' : Pool M ρ ε α}

variable (B N E) in
/-- Every thread keeps the protocol and follows the discipline from here on. -/
structure Kept (p : Pool M ρ ε α) : Prop where
  base : P.Kept N p
  follows : ∀ {i th}, p.threads[i]? = some th →
    ∃ σ, B.fits σ i th.session p.world ∧ D.Follows (E th.request) th.code σ

theorem kept_start {w : World M ρ} (h : P.inv w) (hw : w.trace = []) :
    B.Kept N E (⟨w, []⟩ : Pool M ρ ε α) :=
  ⟨Protocol.kept_start h hw, by simp⟩

section Soundness
variable (hserves : P.Serves N prog) (hprog : ∀ req, D.Follows (E req) (prog req) D.idle)
include hserves hprog

theorem Kept.step (hs : Step prog p p') (h : B.Kept N E p) : B.Kept N E p' := by
  refine ⟨h.base.step hserves hs, fun {j th'} hj => ?_⟩
  cases hs with
  | spawn req =>
      have fresh : ∀ e ∈ p.world.trace, e.pid ≠ p.threads.length :=
        fun e he => Nat.ne_of_lt (h.base.owner e he)
      rw [List.getElem?_append] at hj
      split at hj
      · exact h.follows hj
      · rename_i hlen
        have hlt := (List.getElem?_eq_some_iff.mp hj).1
        obtain rfl : j = p.threads.length := by simp only [List.length_singleton] at hlt; omega
        obtain rfl : ⟨req, M.start, prog req⟩ = th' := by simpa using hj
        exact ⟨D.idle, B.start fresh, hprog req⟩
  | @exec i th o k r w l hth hcode hexec =>
      have hlt := (List.getElem?_eq_some_iff.mp hth).1
      by_cases hij : i = j
      · subst hij
        obtain rfl := Option.some.inj ((List.getElem?_set_self hlt).symm.trans hj)
        obtain ⟨σ, hfits, hfollows⟩ := h.follows hth
        rw [hcode] at hfollows
        obtain ⟨hsees, hfits'⟩ := B.exec hfits h.base.inv (h.base.loc hth) hfollows.1 hexec
        exact ⟨_, hfits', hfollows.2 r hsees⟩
      · rw [List.getElem?_set_ne hij] at hj
        obtain ⟨σ, hfits, hfollows⟩ := h.follows hj
        have others := (h.base.exec hth hcode hexec).2.2.2
        exact ⟨σ, B.rely hfits (others j (Ne.symm hij)), hfollows⟩

theorem Kept.reaches (hr : Reaches prog p p') (h : B.Kept N E p) : B.Kept N E p' := by
  induction hr with
  | refl => exact h
  | tail _ hs ih => exact ih.step hserves hprog hs

omit hserves hprog in
/-- The outcome of a finished thread is as its discipline says. -/
theorem Kept.outcome (h : B.Kept N E p) {i : Nat} {th : Thread M ρ ε α} {out : Except ε α}
    (hth : p.threads[i]? = some th) (hout : th.outcome = some out) :
    ∃ σ, B.fits σ i th.session p.world ∧ E th.request out σ := by
  obtain ⟨σ, hfits, hfollows⟩ := h.follows hth
  rw [Thread.code_of_outcome hout] at hfollows
  exact ⟨σ, hfits, by cases out <;> exact hfollows⟩

/-- Thread `i` gets its next statement through, if it holds something or nobody else does. -/
theorem Kept.advance (h : B.Kept N E p) {i : Nat} {req : ρ} {l : M.Local} {o : S.Op}
    {k : S.Res o → Program S ε α} (hi : p.threads[i]? = some ⟨req, l, .op o k⟩)
    (hrun : B.holds i p.world ∨ ∀ j, j ≠ i → ¬ B.holds j p.world) :
    ∃ r w l', Reaches prog p ⟨w, p.threads.set i ⟨req, l', k r⟩⟩ ∧
      B.Kept N E ⟨w, p.threads.set i ⟨req, l', k r⟩⟩ ∧ ∀ j, j ≠ i → B.holds j w →
        B.holds j p.world := by
  obtain ⟨σ, hfits, hfollows⟩ := h.follows hi
  obtain ⟨⟨r, w, l'⟩, hexec⟩ := B.unblocked req hfits h.base.inv (h.base.loc hi) hfollows.1 hrun
  have hs : Step prog p ⟨w, p.threads.set i ⟨req, l', k r⟩⟩ := .exec hi rfl hexec
  have others := (h.base.exec hi rfl hexec).2.2.2
  exact ⟨r, w, l', .single hs, h.step hserves hprog hs, fun j hj => B.rely_holds (others j hj)⟩

variable (hE : ∀ {req out σ}, E req out σ → σ = D.idle)
include hE

/-- Thread `j` can go on until it holds nothing, and the others need not move. -/
theorem Kept.release (h : B.Kept N E p) {j : Nat} {req : ρ} {l : M.Local} {c : Program S ε α}
    (hj : p.threads[j]? = some ⟨req, l, c⟩) :
    ∃ p', Reaches prog p p' ∧ B.Kept N E p' ∧ ¬ B.holds j p'.world ∧
      p'.threads.length = p.threads.length ∧
      ∀ i, i ≠ j → p'.threads[i]? = p.threads[i]? ∧ (B.holds i p'.world → B.holds i p.world) := by
  induction c generalizing p l with
  | ret a | raise e =>
      obtain ⟨σ, hfits, hout⟩ := h.outcome hj rfl
      obtain rfl := hE hout
      exact ⟨p, .refl, h, B.free hfits h.base.inv (h.base.loc hj), rfl, fun i _ => ⟨rfl, id⟩⟩
  | op o k ih =>
      by_cases hholds : B.holds j p.world
      · have hlt := (List.getElem?_eq_some_iff.mp hj).1
        obtain ⟨r, w, l', hr, hkept, hothers⟩ := h.advance hserves hprog hj (.inl hholds)
        obtain ⟨p', hr', hkept', hfree, hlen, hrest⟩ := ih r hkept (List.getElem?_set_self hlt)
        refine ⟨p', hr.trans hr', hkept', hfree, by simpa using hlen, fun i hij => ?_⟩
        obtain ⟨hth, hheld⟩ := hrest i hij
        rw [List.getElem?_set_ne (Ne.symm hij)] at hth
        exact ⟨hth, fun hi => hothers i hij (hheld hi)⟩
      · exact ⟨p, .refl, h, hholds, rfl, fun i _ => ⟨rfl, id⟩⟩

omit hE in
/-- While nobody else holds anything, thread `i` can go on to its end. -/
theorem Kept.finish (h : B.Kept N E p) {i : Nat} {req : ρ} {l : M.Local} {c : Program S ε α}
    (hi : p.threads[i]? = some ⟨req, l, c⟩) (hothers : ∀ j, j ≠ i → ¬ B.holds j p.world) :
    ∃ p' th', Reaches prog p p' ∧ p'.threads[i]? = some th' ∧ th'.request = req ∧
      th'.outcome ≠ none := by
  induction c generalizing p l with
  | ret a | raise e => exact ⟨p, _, .refl, hi, rfl, Option.some_ne_none _⟩
  | op o k ih =>
      have hlt := (List.getElem?_eq_some_iff.mp hi).1
      obtain ⟨r, w, l', hr, hkept, hheld⟩ := h.advance hserves hprog hi (.inr hothers)
      obtain ⟨p', th', hr', hrest⟩ := ih r hkept (List.getElem?_set_self hlt) fun j hj hw =>
        hothers j hj (hheld j hj hw)
      exact ⟨p', th', hr.trans hr', hrest⟩

/-- All threads but `i` up to the `n`-th can be brought to hold nothing. -/
theorem Kept.release_others (h : B.Kept N E p) {i : Nat} {th : Thread M ρ ε α}
    (hi : p.threads[i]? = some th) {n : Nat} (hn : n ≤ p.threads.length) :
    ∃ p', Reaches prog p p' ∧ B.Kept N E p' ∧ p'.threads.length = p.threads.length ∧
      p'.threads[i]? = some th ∧ ∀ j, j < n → j ≠ i → ¬ B.holds j p'.world := by
  induction n with
  | zero => exact ⟨p, .refl, h, rfl, hi, fun j hj => absurd hj (Nat.not_lt_zero j)⟩
  | succ n ih =>
      obtain ⟨q, hr, hkept, hlen, hq, hfree⟩ := ih (Nat.le_of_succ_le hn)
      by_cases hin : n = i
      · refine ⟨q, hr, hkept, hlen, hq, fun j hj hji => hfree j ?_ hji⟩
        omega
      · have hlt : n < q.threads.length := by omega
        obtain ⟨q', hr', hkept', hfree', hlen', hrest⟩ :=
          hkept.release hserves hprog hE (List.getElem?_eq_getElem hlt)
        refine ⟨q', hr.trans hr', hkept', hlen'.trans hlen, ?_, fun j hj hji hholds => ?_⟩
        · rw [(hrest i (Ne.symm hin)).1, hq]
        · by_cases hjn : j = n
          · exact hfree' (hjn ▸ hholds)
          · exact hfree j (by omega) hji ((hrest j hjn).2 hholds)

/-- No thread ever gets stuck: from every pool of the run it can still come to its end. -/
theorem Kept.ends (h : B.Kept N E p) {i : Nat} {th : Thread M ρ ε α}
    (hi : p.threads[i]? = some th) :
    ∃ p' th', Reaches prog p p' ∧ p'.threads[i]? = some th' ∧ th'.request = th.request ∧
      th'.outcome ≠ none := by
  obtain ⟨q, hr, hkept, hlen, hq, hfree⟩ := h.release_others hserves hprog hE hi (Nat.le_refl _)
  have hothers : ∀ j, j ≠ i → ¬ B.holds j q.world := by
    intro j hji hholds
    obtain ⟨e, he, hpid⟩ := B.owner hkept.base.inv hholds
    have hlt := hkept.base.owner e he
    exact hfree j (hlen ▸ hpid ▸ hlt) hji hholds
  obtain ⟨p', th', hr', hrest⟩ := hkept.finish hserves hprog hq hothers
  exact ⟨p', th', hr.trans hr', hrest⟩

end Soundness

end Bond

end SecureIam.Lib
