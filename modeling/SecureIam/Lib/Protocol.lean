import SecureIam.Lib.Interleaving

/-!
Rely-guarantee reasoning about the threads of a pool.

A protocol says what holds between any two statements (`inv`), how a thread's
private state fits the shared one (`loc`), what a thread lets the others do
(`rely`) and what it owes them (`guar`). `wp` asks of a program that each of its
statements keeps the invariant and the guarantee from every state that the other
threads may have left, and is therefore stable under interference by definition.
-/
namespace SecureIam.Lib
variable {S : Signature} {ρ ε ε' α β : Type} {M : Machine S}

structure Protocol (M : Machine S) (ρ : Type) where
  inv : World M ρ → Prop
  loc : Nat → M.Local → World M ρ → Prop
  rely : Nat → World M ρ → World M ρ → Prop
  guar : Nat → ρ → S.Op → World M ρ → World M ρ → Prop
  rely_refl : ∀ i w, rely i w w
  rely_trans : ∀ {i w₁ w₂ w₃}, rely i w₁ w₂ → rely i w₂ w₃ → rely i w₁ w₃
  loc_start : ∀ {i w}, inv w → (∀ e ∈ w.trace, e.pid ≠ i) → loc i M.start w
  loc_rely : ∀ {i l w w'}, loc i l w → rely i w w' → loc i l w'
  loc_exec : ∀ {i req o l l' w w'} {r : S.Res o}, loc i l w →
    w.exec i req o l = some (r, w', l') → loc i l' w'
  exec_rely : ∀ {i j req o l l' w w'} {r : S.Res o}, i ≠ j → inv w → loc i l w →
    w.exec i req o l = some (r, w', l') → inv w' → guar i req o w w' → rely j w w'

namespace Protocol

/-- What an outcome must satisfy, of the thread's session and the world it ends in. -/
abbrev Post (M : Machine S) (ρ ε α : Type) := Except ε α → M.Local → World M ρ → Prop

variable (P : Protocol M ρ)

/-- The states that the other threads may leave to thread `i` standing in `w`. -/
def Later (i : Nat) (l : M.Local) (w w' : World M ρ) : Prop :=
  P.rely i w w' ∧ P.inv w' ∧ P.loc i l w'

def wp (i : Nat) (req : ρ) (Q : Post M ρ ε α) : Program S ε α → M.Local → World M ρ → Prop
  | .ret a, l, w => ∀ w', P.Later i l w w' → Q (.ok a) l w'
  | .raise e, l, w => ∀ w', P.Later i l w w' → Q (.error e) l w'
  | .op o k, l, w => ∀ w', P.Later i l w w' → ∀ r w'' l', w'.exec i req o l = some (r, w'', l') →
      P.inv w'' ∧ P.guar i req o w' w'' ∧ wp i req Q (k r) l' w''

variable {P} {i : Nat} {req : ρ}

theorem Later.trans {l : M.Local} {w₁ w₂ w₃ : World M ρ} (h : P.rely i w₁ w₂)
    (h' : P.Later i l w₂ w₃) : P.Later i l w₁ w₃ :=
  ⟨P.rely_trans h h'.1, h'.2⟩

/-- A program may be entered at any state the others leave. -/
theorem wp.rely {Q : Post M ρ ε α} {p : Program S ε α} {l : M.Local} {w w' : World M ρ}
    (h : P.wp i req Q p l w) (hr : P.rely i w w') : P.wp i req Q p l w' := by
  cases p <;> exact fun w'' hw => h w'' (hw.trans hr)

/-- It is enough to enter a program at the states where its thread next runs. -/
theorem wp_of_later {Q : Post M ρ ε α} {p : Program S ε α} {l : M.Local} {w : World M ρ}
    (h : ∀ w', P.Later i l w w' → P.wp i req Q p l w') : P.wp i req Q p l w := by
  cases p <;> exact fun w' hw => h w' hw w' ⟨P.rely_refl i w', hw.2⟩

theorem wp.mono {Q Q' : Post M ρ ε α} {p : Program S ε α} {l : M.Local} {w : World M ρ}
    (h : P.wp i req Q p l w)
    (hQ : ∀ out l' w', P.inv w' → P.loc i l' w' → Q out l' w' → Q' out l' w') :
    P.wp i req Q' p l w := by
  induction p generalizing l w with
  | ret a | raise e => exact fun w' hw => hQ _ _ _ hw.2.1 hw.2.2 (h w' hw)
  | op o k ih =>
      intro w' hw r w'' l' hexec
      obtain ⟨hinv, hguar, hk⟩ := h w' hw r w'' l' hexec
      exact ⟨hinv, hguar, ih r hk⟩

/-- The sequencing rule: an error of the first program skips the second. -/
theorem wp_bind {Q : Post M ρ ε β} {p : Program S ε α} {f : α → Program S ε β} {l : M.Local}
    {w : World M ρ}
    (h : P.wp i req (fun out l' w' => match out with
      | .ok a => P.wp i req Q (f a) l' w'
      | .error e => Q (.error e) l' w') p l w) : P.wp i req Q (p.bind f) l w := by
  induction p generalizing l w with
  | ret a => exact wp_of_later h
  | raise e => exact h
  | op o k ih =>
      intro w' hw r w'' l' hexec
      obtain ⟨hinv, hguar, hk⟩ := h w' hw r w'' l' hexec
      exact ⟨hinv, hguar, ih r hk⟩

theorem wp_attempt {Q : Post M ρ ε' (Except ε α)} {p : Program S ε α} {l : M.Local}
    {w : World M ρ} (h : P.wp i req (fun out l' w' => Q (.ok out) l' w') p l w) :
    P.wp i req Q p.attempt l w := by
  induction p generalizing l w with
  | ret a => exact h
  | raise e => exact h
  | op o k ih =>
      intro w' hw r w'' l' hexec
      obtain ⟨hinv, hguar, hk⟩ := h w' hw r w'' l' hexec
      exact ⟨hinv, hguar, ih r hk⟩

theorem wp_ensure {Q : Post M ρ ε α} {p : Program S ε α} {q : Program S ε Unit} {l : M.Local}
    {w : World M ρ}
    (h : P.wp i req (fun out l' w' =>
      P.wp i req (fun end' l'' w'' => match end' with
        | .ok _ => Q out l'' w''
        | .error e => Q (.error e) l'' w'') q l' w') p l w)
    (hQ : ∀ {out l' w' w''}, P.inv w' → Q out l' w' → P.Later i l' w' w'' → Q out l' w'') :
    P.wp i req Q (p.ensure q) l w := by
  refine wp_bind (wp_attempt (h.mono ?_))
  intro out l' w' _ _ h
  refine wp_bind (h.mono ?_)
  intro stop l'' w'' hinv _ h
  cases stop with
  | error e => exact h
  | ok _ => cases out <;> exact fun w₃ hw => hQ hinv h hw

/-- A program all of whose statements keep `J`, the invariant and the guarantee. -/
theorem wp_of_all {N : S.Op → Prop} {J : M.Local → World M ρ → Prop} {p : Program S ε α}
    (hp : p.All N) (hJ : ∀ {l w w'}, J l w → P.rely i w w' → J l w')
    (hN : ∀ o, N o → ∀ {r : S.Res o} {l l' w w'}, J l w → P.inv w → P.loc i l w →
      w.exec i req o l = some (r, w', l') → P.inv w' ∧ P.guar i req o w w' ∧ J l' w')
    {l : M.Local} {w : World M ρ} (hl : J l w) : P.wp i req (fun _ => J) p l w := by
  induction p generalizing l w with
  | ret a | raise e => exact fun _ hw => hJ hl hw.1
  | op o k ih =>
      intro w' hw r w'' l' hexec
      obtain ⟨hinv, hguar, hJ'⟩ := hN o hp.1 (hJ hl hw.1) hw.2.1 hw.2.2 hexec
      exact ⟨hinv, hguar, ih r (hp.2 r) hJ'⟩

/-- Every thread of the pool keeps to the protocol from here on. -/
structure Kept (P : Protocol M ρ) (Q : ρ → Nat → Post M ρ ε α) (p : Pool M ρ ε α) : Prop where
  inv : P.inv p.world
  owner : ∀ e ∈ p.world.trace, e.pid < p.threads.length
  loc : ∀ {i th}, p.threads[i]? = some th → P.loc i th.session p.world
  wp : ∀ {i th}, p.threads[i]? = some th →
    P.wp i th.request (Q th.request i) th.code th.session p.world

/-- Every request keeps to the protocol when it starts on a fresh thread. -/
def Serves (P : Protocol M ρ) (Q : ρ → Nat → Post M ρ ε α) (prog : ρ → Program S ε α) : Prop :=
  ∀ req i w, P.inv w → (∀ e ∈ w.trace, e.pid ≠ i) → P.wp i req (Q req i) (prog req) M.start w

private theorem spawned {γ : Type} {n i : Nat} {x y : γ} (hi : ¬ i < n)
    (h : [x][i - n]? = some y) : i = n ∧ x = y := by
  have hlt := (List.getElem?_eq_some_iff.mp h).1
  obtain rfl : i = n := by simp only [List.length_singleton] at hlt; omega
  exact ⟨rfl, by simpa using h⟩

section Soundness
variable {Q : ρ → Nat → Post M ρ ε α} {prog : ρ → Program S ε α} {p p' : Pool M ρ ε α}

theorem kept_start {w : World M ρ} (h : P.inv w) (hw : w.trace = []) :
    P.Kept Q (⟨w, []⟩ : Pool M ρ ε α) := by
  refine ⟨h, ?_, ?_, ?_⟩ <;> simp [hw]

/-- One statement of thread `i`: its guarantee, and the rely of every other thread. -/
theorem Kept.exec (h : P.Kept Q p) {th : Thread M ρ ε α} {o : S.Op}
    {k : S.Res o → Program S ε α} {r : S.Res o} {w : World M ρ} {l : M.Local}
    (hth : p.threads[i]? = some th) (hcode : th.code = .op o k)
    (hexec : p.world.exec i th.request o th.session = some (r, w, l)) :
    P.inv w ∧ P.guar i th.request o p.world w ∧
      P.wp i th.request (Q th.request i) (k r) l w ∧ ∀ j, j ≠ i → P.rely j p.world w := by
  have hwp := h.wp hth
  rw [hcode] at hwp
  have here : P.Later i th.session p.world p.world := ⟨P.rely_refl _ _, h.inv, h.loc hth⟩
  obtain ⟨hinv, hguar, hk⟩ := hwp _ here r w l hexec
  exact ⟨hinv, hguar, hk, fun j hj => P.exec_rely hj.symm h.inv (h.loc hth) hexec hinv hguar⟩

theorem Kept.step (hprog : P.Serves Q prog) (hs : Step prog p p') (h : P.Kept Q p) :
    P.Kept Q p' := by
  cases hs with
  | spawn req =>
      have fresh : ∀ e ∈ p.world.trace, e.pid ≠ p.threads.length :=
        fun e he => Nat.ne_of_lt (h.owner e he)
      refine ⟨h.inv, fun e he => ?_, fun {i th} hth => ?_, fun {i th} hth => ?_⟩
      · simp only [List.length_append, List.length_singleton]
        exact Nat.lt_succ_of_lt (h.owner e he)
      all_goals
        rw [List.getElem?_append] at hth
        split at hth
      · exact h.loc hth
      · obtain ⟨rfl, rfl⟩ := spawned ‹_› hth
        exact P.loc_start h.inv fresh
      · exact h.wp hth
      · obtain ⟨rfl, rfl⟩ := spawned ‹_› hth
        exact hprog req _ _ h.inv fresh
  | @exec i th o k r w l hth hcode hexec =>
      obtain ⟨hinv, -, hk, others⟩ := h.exec hth hcode hexec
      have hlt := (List.getElem?_eq_some_iff.mp hth).1
      refine ⟨hinv, fun e he => ?_, fun {j th'} hj => ?_, fun {j th'} hj => ?_⟩
      · rw [World.exec_trace hexec, List.mem_append, List.mem_singleton] at he
        rw [List.length_set]
        rcases he with he | rfl
        · exact h.owner e he
        · exact hlt
      all_goals
        by_cases hij : i = j
        · subst hij
          obtain rfl := Option.some.inj ((List.getElem?_set_self hlt).symm.trans hj)
          first | exact P.loc_exec (h.loc hth) hexec | exact hk
        · rw [List.getElem?_set_ne hij] at hj
          first
            | exact P.loc_rely (h.loc hj) (others j (Ne.symm hij))
            | exact (h.wp hj).rely (others j (Ne.symm hij))

theorem Kept.reaches (hprog : P.Serves Q prog) (hr : Reaches prog p p') (h : P.Kept Q p) :
    P.Kept Q p' := by
  induction hr with
  | refl => exact h
  | tail _ hs ih => exact ih.step hprog hs

/-- A relation that every guarantee implies holds across whole runs. -/
theorem Kept.across {E : World M ρ → World M ρ → Prop} (hprog : P.Serves Q prog)
    (hr : Reaches prog p p') (h : P.Kept Q p) (refl : ∀ w, E w w)
    (trans : ∀ {w₁ w₂ w₃}, E w₁ w₂ → E w₂ w₃ → E w₁ w₃)
    (hE : ∀ {i req o w w'}, P.guar i req o w w' → E w w') : E p.world p'.world := by
  induction hr with
  | refl => exact refl _
  | tail hr hs ih =>
      refine trans ih ?_
      cases hs with
      | spawn req => exact refl _
      | exec hth hcode hexec =>
          exact hE ((h.reaches hprog hr).exec hth hcode hexec).2.1

/-- What the statements that get through meanwhile guarantee, of requests of one kind and
between states of the run, holds across a run. -/
theorem Kept.across_while {E : World M ρ → World M ρ → Prop} {I : World M ρ → Prop}
    {R : ρ → Prop} (hprog : P.Serves Q prog) (hr : Reaches prog p p') (h : P.Kept Q p)
    (hI : ∀ {q}, Reaches prog p q → I q.world)
    (hR : ∀ e ∈ p'.world.trace, p.world.trace.length ≤ e.step → R e.request) (refl : ∀ w, E w w)
    (trans : ∀ {w₁ w₂ w₃}, E w₁ w₂ → E w₂ w₃ → E w₁ w₃)
    (hE : ∀ {i req o w w'}, R req → I w → I w' → P.guar i req o w w' → E w w') :
    E p.world p'.world := by
  induction hr with
  | refl => exact refl _
  | @tail q q' hr hs ih =>
      obtain ⟨new, hnew⟩ := hs.trace
      have hearlier := ih fun e he => hR e (hnew ▸ List.mem_append_left _ he)
      refine trans hearlier ?_
      cases hs with
      | spawn req => exact refl _
      | @exec i th o k r w l hth hcode hexec =>
          obtain ⟨before, hbefore⟩ := Reaches.trace hr
          have hrequest : R th.request := by
            refine hR ⟨q.world.trace.length, i, th.request, o, r, q.world.shared, w.shared⟩ ?_ ?_
            · rw [World.exec_trace hexec]
              exact List.mem_append_right _ (List.mem_singleton_self _)
            · simp only [hbefore, List.length_append]
              exact Nat.le_add_right _ _
          exact hE hrequest (hI hr) (hI (hr.tail (.exec hth hcode hexec)))
            ((h.reaches hprog hr).exec hth hcode hexec).2.1

/-- An entry of the trace keeps its request's guarantee. -/
theorem Kept.guaranteed (hprog : P.Serves Q prog) (hr : Reaches prog p p') (h : P.Kept Q p)
    {e : Entry M ρ} (he : e ∈ p'.world.trace) : e ∈ p.world.trace ∨ ∃ q q', Reaches prog p q ∧
      Step prog q q' ∧ Reaches prog q' p' ∧ q.world.shared = e.before ∧ q'.world.shared = e.after ∧
      q'.world.trace = q.world.trace ++ [e] ∧ P.guar e.pid e.request e.op q.world q'.world := by
  refine (Reaches.entry hr he).imp_right fun hsplit => ?_
  obtain ⟨q, q', hq, hstep, hq', hbefore, hafter, htrace⟩ := hsplit
  refine ⟨q, q', hq, hstep, hq', hbefore, hafter, htrace, ?_⟩
  cases hstep with
  | spawn req => simp at htrace
  | exec hth hcode hexec =>
      rw [World.exec_trace hexec] at htrace
      obtain rfl := List.singleton_inj.mp (List.append_cancel_left htrace)
      exact ((h.reaches hprog hq).exec hth hcode hexec).2.1

/-- The outcome of a finished thread satisfies its postcondition. -/
theorem Kept.outcome (h : P.Kept Q p) {th : Thread M ρ ε α} {out : Except ε α}
    (hth : p.threads[i]? = some th) (hdone : th.code = .ofExcept out) :
    Q th.request i out th.session p.world := by
  have hwp := h.wp hth
  rw [hdone] at hwp
  cases out <;> exact hwp _ ⟨P.rely_refl _ _, h.inv, h.loc hth⟩

end Soundness

end Protocol

end SecureIam.Lib
