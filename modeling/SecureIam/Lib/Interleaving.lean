import SecureIam.Lib.Program
import Mathlib.Logic.Relation
import Mathlib.Data.List.Nodup

/-!
Interleaved execution of programs, one atomic statement at a time.

A machine gives each statement its effect on a shared state and on the private
state of the thread that issues it. Threads may start at any time and take turns
in any order. The trace is a ghost: it records every statement with the shared
state before and after it, and its length numbers the steps of the run.
-/
namespace SecureIam.Lib
variable {S : Signature} {ρ ε ε' α β : Type}

/-- `exec step pid o g l` is `none` while the statement has to wait. -/
structure Machine (S : Signature) where
  Shared : Type
  Local : Type
  start : Local
  exec : Nat → Nat → (o : S.Op) → Shared → Local → Option (S.Res o × Shared × Local)

structure Entry (M : Machine S) (ρ : Type) where
  step : Nat
  pid : Nat
  request : ρ
  op : S.Op
  result : S.Res op
  before : M.Shared
  after : M.Shared

structure World (M : Machine S) (ρ : Type) where
  shared : M.Shared
  trace : List (Entry M ρ)

structure Thread (M : Machine S) (ρ ε α : Type) where
  request : ρ
  session : M.Local
  code : Program S ε α

/-- How the request has ended, if it has. -/
def Thread.outcome (th : Thread M ρ ε α) : Option (Except ε α) :=
  match th.code with
  | .ret a => some (.ok a)
  | .raise e => some (.error e)
  | .op _ _ => none

structure Pool (M : Machine S) (ρ ε α : Type) where
  world : World M ρ
  threads : List (Thread M ρ ε α)

variable {M : Machine S}

theorem Thread.code_of_outcome {th : Thread M ρ ε α} {out : Except ε α}
    (h : th.outcome = some out) :
    th.code = .ofExcept out := by
  simp only [outcome] at h
  split at h
  · rename_i a hcode
    exact Option.some.inj h ▸ hcode
  · rename_i e hcode
    exact Option.some.inj h ▸ hcode
  · cases h

namespace World

def exec (w : World M ρ) (i : Nat) (req : ρ) (o : S.Op) (l : M.Local) :
    Option (S.Res o × World M ρ × M.Local) :=
  (M.exec w.trace.length i o w.shared l).map fun (r, g, l') =>
    (r, ⟨g, w.trace ++ [⟨w.trace.length, i, req, o, r, w.shared, g⟩]⟩, l')

theorem exec_eq_some {w w' : World M ρ} {i : Nat} {req : ρ} {o : S.Op} {l l' : M.Local}
    {r : S.Res o} :
    w.exec i req o l = some (r, w', l') ↔
      ∃ g, M.exec w.trace.length i o w.shared l = some (r, g, l') ∧
        w' = ⟨g, w.trace ++ [⟨w.trace.length, i, req, o, r, w.shared, g⟩]⟩ := by
  simp only [exec, Option.map_eq_some_iff, Prod.exists, Prod.mk.injEq]
  constructor
  · rintro ⟨r', g, l'', h, rfl, rfl, rfl⟩
    exact ⟨g, h, rfl⟩
  · rintro ⟨g, h, rfl⟩
    exact ⟨r, g, l', h, rfl, rfl, rfl⟩

theorem exec_trace {w w' : World M ρ} {i : Nat} {req : ρ} {o : S.Op} {l l' : M.Local}
    {r : S.Res o} (h : w.exec i req o l = some (r, w', l')) :
    w'.trace = w.trace ++ [⟨w.trace.length, i, req, o, r, w.shared, w'.shared⟩] := by
  obtain ⟨g, -, rfl⟩ := exec_eq_some.mp h
  rfl

/-- What thread `i` itself has done so far. -/
def own (w : World M ρ) (i : Nat) : List (Entry M ρ) :=
  w.trace.filter (·.pid == i)

theorem mem_own {w : World M ρ} {i : Nat} {e : Entry M ρ} :
    e ∈ w.own i ↔ e ∈ w.trace ∧ e.pid = i := by
  simp [own]

theorem own_exec_self {w w' : World M ρ} {i : Nat} {req : ρ} {o : S.Op} {l l' : M.Local}
    {r : S.Res o} (h : w.exec i req o l = some (r, w', l')) :
    w'.own i = w.own i ++ [⟨w.trace.length, i, req, o, r, w.shared, w'.shared⟩] := by
  simp [own, exec_trace h]

theorem own_exec_other {w w' : World M ρ} {i j : Nat} {req : ρ} {o : S.Op} {l l' : M.Local}
    {r : S.Res o} (hij : i ≠ j) (h : w.exec i req o l = some (r, w', l')) :
    w'.own j = w.own j := by
  simp [own, exec_trace h, hij]

theorem own_exec {w w' : World M ρ} {i : Nat} {req : ρ} {o : S.Op} {l l' : M.Local} {r : S.Res o}
    (h : w.exec i req o l = some (r, w', l')) (j : Nat) : ∃ new, w'.own j = w.own j ++ new := by
  by_cases hij : i = j
  · subst hij
    exact ⟨_, own_exec_self h⟩
  · exact ⟨[], by rw [own_exec_other hij h, List.append_nil]⟩

/-- The step number of an entry is its place in the trace. -/
def Placed (w : World M ρ) : Prop :=
  ∀ (n : Nat) (e : Entry M ρ), w.trace[n]? = some e → e.step = n

theorem Placed.exec {w w' : World M ρ} {i : Nat} {req : ρ} {o : S.Op} {l l' : M.Local}
    {r : S.Res o} (hw : w.Placed) (h : w.exec i req o l = some (r, w', l')) : w'.Placed := by
  intro n e he
  rw [exec_trace h] at he
  by_cases hn : n < w.trace.length
  · rw [List.getElem?_append_left hn] at he
    exact hw n e he
  · rw [List.getElem?_append_right (by omega)] at he
    have hlt := (List.getElem?_eq_some_iff.mp he).1
    have hzero : n - w.trace.length = 0 := by simpa using hlt
    rw [hzero] at he
    obtain rfl := Option.some.inj he
    simp only
    omega

/-- Two entries of one step number are the same. -/
theorem Placed.step_inj {w : World M ρ} (hw : w.Placed) {e e' : Entry M ρ} (he : e ∈ w.trace)
    (he' : e' ∈ w.trace) (h : e.step = e'.step) : e = e' := by
  obtain ⟨n, hn⟩ := List.mem_iff_getElem?.mp he
  obtain ⟨m, hm⟩ := List.mem_iff_getElem?.mp he'
  have hnm : n = m := by rw [← hw n e hn, ← hw m e' hm, h]
  subst hnm
  exact Option.some.inj (hn.symm.trans hm)

theorem Placed.nodup {w : World M ρ} (hw : w.Placed) : w.trace.Nodup := by
  refine List.nodup_iff_getElem?_ne_getElem?.mpr fun m n hmn hn heq => ?_
  have hn' := List.getElem?_eq_getElem hn
  have hm := hw m _ (heq.trans hn')
  have := hw n _ hn'
  omega

theorem countP_below (w : World M ρ) (P : Entry M ρ → Bool) (n : Nat) :
    (w.trace.filter (·.pid < n + 1)).countP P = (w.trace.filter (·.pid < n)).countP P
      + (w.own n).countP P := by
  rw [own, List.countP_filter, List.countP_filter, List.countP_filter]
  induction w.trace with
  | nil => rfl
  | cons e es ih =>
      simp only [List.countP_cons, ih]
      by_cases hn : e.pid = n
      · have hlt : decide (e.pid < n + 1) = true := decide_eq_true (by omega)
        have hnot : decide (e.pid < n) = false := decide_eq_false (by omega)
        rw [hlt, hnot, beq_iff_eq.mpr hn, Bool.and_false, if_neg Bool.false_ne_true]
        omega
      · have hsame : decide (e.pid < n + 1) = decide (e.pid < n) := decide_eq_decide.mpr (by omega)
        rw [hsame, beq_eq_false_iff_ne.mpr hn, Bool.and_false, if_neg Bool.false_ne_true]
        omega

/-- Statements counted thread by thread, when no thread has more than one to count. -/
theorem countP_trace (w : World M ρ) {P : Entry M ρ → Bool} {b : Nat → Bool} {n : Nat}
    (howner : ∀ e ∈ w.trace, e.pid < n) (hb : ∀ i, i < n → (w.own i).countP P = (b i).toNat) :
    w.trace.countP P = (List.range n).countP b := by
  have hbelow : ∀ m, m ≤ n → (w.trace.filter (·.pid < m)).countP P = (List.range m).countP b := by
    intro m hm
    induction m with
    | zero => simp
    | succ m ih =>
        rw [countP_below, ih (Nat.le_of_succ_le hm), hb m hm, List.range_succ, List.countP_append,
          List.countP_singleton]
        cases b m <;> rfl
  rw [← hbelow n (Nat.le_refl n), List.filter_eq_self.mpr fun e he => decide_eq_true (howner e he)]
end World

/-- A new request starts, or thread `i` gets one statement through. -/
inductive Step (prog : ρ → Program S ε α) : Pool M ρ ε α → Pool M ρ ε α → Prop
  | spawn (p : Pool M ρ ε α) (req : ρ) :
      Step prog p ⟨p.world, p.threads ++ [⟨req, M.start, prog req⟩]⟩
  | exec {p : Pool M ρ ε α} {i : Nat} {th : Thread M ρ ε α} {o : S.Op}
      {k : S.Res o → Program S ε α} {r : S.Res o} {w : World M ρ} {l : M.Local}
      (hth : p.threads[i]? = some th) (hcode : th.code = .op o k)
      (hexec : p.world.exec i th.request o th.session = some (r, w, l)) :
      Step prog p ⟨w, p.threads.set i ⟨th.request, l, k r⟩⟩

abbrev Reaches (prog : ρ → Program S ε α) : Pool M ρ ε α → Pool M ρ ε α → Prop :=
  Relation.ReflTransGen (Step prog)

/-- Entries belong to threads of the pool. -/
def Pool.Owned (p : Pool M ρ ε α) : Prop :=
  ∀ e ∈ p.world.trace, ∃ th, p.threads[e.pid]? = some th ∧ th.request = e.request

section Runs
variable {prog : ρ → Program S ε α} {p p' : Pool M ρ ε α}

/-- The thread that a step leaves at `j`, seen from the pool before it. -/
theorem Step.thread (h : Step prog p p') {j : Nat} {th : Thread M ρ ε α}
    (hj : p.threads[j]? = some th) :
    ∃ th', p'.threads[j]? = some th' ∧ th'.request = th.request := by
  cases h with
  | spawn req =>
      have hlt := (List.getElem?_eq_some_iff.mp hj).1
      exact ⟨th, by simpa [List.getElem?_append_left hlt] using hj, rfl⟩
  | @exec i th₀ o k r w l hth hcode hexec =>
      by_cases hij : i = j
      · subst hij
        have hlt := (List.getElem?_eq_some_iff.mp hj).1
        obtain rfl : th₀ = th := by simpa [hth] using hj
        exact ⟨⟨th₀.request, l, k r⟩, by simp [hlt], rfl⟩
      · exact ⟨th, by simpa [List.getElem?_set_ne hij] using hj, rfl⟩

theorem Step.owned (h : Step prog p p') (hp : p.Owned) : p'.Owned := by
  intro e he
  have keep : ∀ e ∈ p.world.trace, ∃ th, p'.threads[e.pid]? = some th ∧ th.request = e.request := by
    intro e he
    obtain ⟨th, hth, hreq⟩ := hp e he
    obtain ⟨th', hth', heq⟩ := h.thread hth
    exact ⟨th', hth', heq.trans hreq⟩
  cases h with
  | spawn req => exact keep e he
  | @exec i th o k r w l hth hcode hexec =>
      rw [World.exec_trace hexec, List.mem_append, List.mem_singleton] at he
      cases he with
      | inl he => exact keep e he
      | inr he => exact he ▸ (Step.exec hth hcode hexec : Step prog p _).thread hth

theorem Reaches.owned (h : Reaches prog p p') (hp : p.Owned) : p'.Owned := by
  induction h with
  | refl => exact hp
  | tail _ hs ih => exact hs.owned ih

theorem Reaches.thread (h : Reaches prog p p') {j : Nat} {th : Thread M ρ ε α}
    (hj : p.threads[j]? = some th) :
    ∃ th', p'.threads[j]? = some th' ∧ th'.request = th.request := by
  induction h with
  | refl => exact ⟨th, hj, rfl⟩
  | tail _ hs ih =>
      obtain ⟨th', hth', hreq⟩ := ih
      obtain ⟨th'', hth'', hreq'⟩ := hs.thread hth'
      exact ⟨th'', hth'', hreq'.trans hreq⟩

theorem Step.trace (h : Step prog p p') : ∃ new, p'.world.trace = p.world.trace ++ new := by
  cases h with
  | spawn req => exact ⟨[], by simp⟩
  | exec _ _ hexec => exact ⟨_, World.exec_trace hexec⟩

theorem Reaches.trace (h : Reaches prog p p') :
    ∃ new, p'.world.trace = p.world.trace ++ new := by
  induction h with
  | refl => exact ⟨[], by simp⟩
  | tail _ hs ih =>
      obtain ⟨new, h⟩ := ih
      obtain ⟨more, h'⟩ := hs.trace
      exact ⟨new ++ more, by rw [h', h, List.append_assoc]⟩

/-- An entry tells which statement the step let through. -/
theorem Step.executed (h : Step prog p p') {e : Entry M ρ}
    (he : p'.world.trace = p.world.trace ++ [e]) :
    e.step = p.world.trace.length ∧
      ∃ l l', p.world.exec e.pid e.request e.op l = some (e.result, p'.world, l') := by
  cases h with
  | spawn req => simp at he
  | @exec i th o k r w l hth hcode hexec =>
      rw [World.exec_trace hexec] at he
      obtain rfl := List.singleton_inj.mp (List.append_cancel_left he)
      exact ⟨rfl, th.session, l, hexec⟩

/-- The step of the run that left an entry. -/
theorem Reaches.entry (h : Reaches prog p p') {e : Entry M ρ} (he : e ∈ p'.world.trace) :
    e ∈ p.world.trace ∨ ∃ q q', Reaches prog p q ∧ Step prog q q' ∧ Reaches prog q' p' ∧
      q.world.shared = e.before ∧ q'.world.shared = e.after ∧
      q'.world.trace = q.world.trace ++ [e] := by
  induction h with
  | refl => exact .inl he
  | @tail q q' hr hs ih =>
      have earlier : e ∈ q.world.trace → e ∈ p.world.trace ∨ ∃ q₁ q₂, Reaches prog p q₁ ∧
          Step prog q₁ q₂ ∧ Reaches prog q₂ q' ∧ q₁.world.shared = e.before ∧
          q₂.world.shared = e.after ∧ q₂.world.trace = q₁.world.trace ++ [e] := by
        intro he
        refine (ih he).imp_right fun hsplit => ?_
        obtain ⟨q₁, q₂, h₁, hstep, h₂, hrest⟩ := hsplit
        exact ⟨q₁, q₂, h₁, hstep, h₂.tail hs, hrest⟩
      cases hs with
      | spawn req => exact earlier he
      | @exec i th o k r w l hth hcode hexec =>
          have htrace := World.exec_trace hexec
          rw [htrace, List.mem_append, List.mem_singleton] at he
          cases he with
          | inl he => exact earlier he
          | inr he =>
              subst he
              exact .inr ⟨q, _, hr, .exec hth hcode hexec, .refl, rfl, rfl, htrace⟩

/-- What is lost across a run is lost in one step of it. -/
theorem Reaches.lost {P : M.Shared → Prop} (h : Reaches prog p p') (hp : P p.world.shared)
    (hp' : ¬ P p'.world.shared) :
    ∃ q q' e, Reaches prog p q ∧ Step prog q q' ∧ Reaches prog q' p' ∧
      q'.world.trace = q.world.trace ++ [e] ∧ q.world.shared = e.before ∧
      q'.world.shared = e.after ∧ P e.before ∧ ¬ P e.after := by
  induction h with
  | refl => exact absurd hp hp'
  | @tail q q' hr hs ih =>
      by_cases hq : P q.world.shared
      · cases hs with
        | spawn req => exact absurd hq hp'
        | exec hth hcode hexec =>
            exact ⟨q, _, _, hr, .exec hth hcode hexec, .refl, World.exec_trace hexec, rfl, rfl, hq,
              hp'⟩
      · obtain ⟨q₁, q₂, e, h₁, hstep, h₂, hrest⟩ := ih hq
        exact ⟨q₁, q₂, e, h₁, hstep, h₂.tail hs, hrest⟩

end Runs

/-! Running one program alone, from its first statement to its end. -/

namespace Program

def run (i : Nat) (req : ρ) :
    Program S ε α → M.Local → World M ρ → Option (Except ε α × M.Local × World M ρ)
  | .ret a, l, w => some (.ok a, l, w)
  | .raise e, l, w => some (.error e, l, w)
  | .op o k, l, w =>
      match w.exec i req o l with
      | none => none
      | some (r, w', l') => (k r).run i req l' w'

theorem run_bind (p : Program S ε α) (f : α → Program S ε β) (i : Nat) (req : ρ) (l : M.Local)
    (w : World M ρ) :
    (p.bind f).run i req l w = (p.run i req l w).bind fun
      | (.ok a, l', w') => (f a).run i req l' w'
      | (.error e, l', w') => some (.error e, l', w') := by
  induction p generalizing l w with
  | ret a => rfl
  | raise e => rfl
  | op o k ih =>
      simp only [op_bind, run]
      cases w.exec i req o l with
      | none => rfl
      | some x => exact ih x.1 x.2.2 x.2.1

private theorem set_self_of_getElem? {γ : Type} {xs : List γ} {i : Nat} {x : γ}
    (h : xs[i]? = some x) : xs.set i x = xs := by
  obtain ⟨hlt, rfl⟩ := List.getElem?_eq_some_iff.mp h
  exact List.set_getElem_self hlt

/-- Running alone is one of the interleavings: only thread `i` takes steps. -/
theorem run_reaches (prog : ρ → Program S ε α) {c : Program S ε α} {i : Nat} {req : ρ}
    {l l' : M.Local} {out : Except ε α} {w w' : World M ρ}
    (h : c.run i req l w = some (out, l', w')) {ts : List (Thread M ρ ε α)}
    (hi : ts[i]? = some ⟨req, l, c⟩) :
    Reaches prog ⟨w, ts⟩ ⟨w', ts.set i ⟨req, l', ofExcept out⟩⟩ := by
  induction c generalizing l w ts with
  | ret a =>
      simp only [run, Option.some.injEq, Prod.mk.injEq] at h
      obtain ⟨rfl, rfl, rfl⟩ := h
      simp only [ofExcept, set_self_of_getElem? hi]
      exact .refl
  | raise e =>
      simp only [run, Option.some.injEq, Prod.mk.injEq] at h
      obtain ⟨rfl, rfl, rfl⟩ := h
      simp only [ofExcept, set_self_of_getElem? hi]
      exact .refl
  | op o k ih =>
      simp only [run] at h
      cases hx : w.exec i req o l with
      | none => simp [hx] at h
      | some x =>
          obtain ⟨r, w₁, l₁⟩ := x
          rw [hx] at h
          have hlt := (List.getElem?_eq_some_iff.mp hi).1
          have rest := @ih r l₁ w₁ h (ts.set i ⟨req, l₁, k r⟩) (by simp [hlt])
          rw [List.set_set] at rest
          exact .head (Step.exec (p := ⟨w, ts⟩) hi rfl hx) rest

end Program

/-! Schedules: the interleavings that can be run. -/

/-- Start a request, let thread `i` take one step, or run it alone to its end. -/
inductive Act (ρ : Type) where
  | spawn (req : ρ)
  | exec (i : Nat)
  | finish (i : Nat)

namespace Pool

def act (prog : ρ → Program S ε α) (p : Pool M ρ ε α) : Act ρ → Option (Pool M ρ ε α)
  | .spawn req => some ⟨p.world, p.threads ++ [⟨req, M.start, prog req⟩]⟩
  | .exec i =>
      match p.threads[i]? with
      | some ⟨req, l, .op o k⟩ =>
          (p.world.exec i req o l).map fun (r, w, l') => ⟨w, p.threads.set i ⟨req, l', k r⟩⟩
      | _ => none
  | .finish i =>
      match p.threads[i]? with
      | some ⟨req, l, c⟩ =>
          (c.run i req l p.world).map fun (out, l', w) =>
            ⟨w, p.threads.set i ⟨req, l', .ofExcept out⟩⟩
      | none => none

def play (prog : ρ → Program S ε α) (p : Pool M ρ ε α) (acts : List (Act ρ)) :
    Option (Pool M ρ ε α) :=
  acts.foldlM (act prog) p

theorem act_reaches {prog : ρ → Program S ε α} {p p' : Pool M ρ ε α} {a : Act ρ}
    (h : p.act prog a = some p') : Reaches prog p p' := by
  cases a with
  | spawn req => exact Option.some.inj h ▸ .single (.spawn p req)
  | exec i =>
      simp only [act] at h
      split at h
      · rename_i req l o k hth
        obtain ⟨⟨r, w, l'⟩, hexec, rfl⟩ := Option.map_eq_some_iff.mp h
        exact .single (.exec hth rfl hexec)
      · cases h
  | finish i =>
      simp only [act] at h
      split at h
      · rename_i req l c hth
        obtain ⟨⟨out, l', w⟩, hrun, rfl⟩ := Option.map_eq_some_iff.mp h
        exact Program.run_reaches prog hrun hth
      · cases h

theorem play_reaches {prog : ρ → Program S ε α} {p p' : Pool M ρ ε α} {acts : List (Act ρ)}
    (h : p.play prog acts = some p') : Reaches prog p p' := by
  induction acts generalizing p with
  | nil => exact Option.some.inj h ▸ .refl
  | cons a acts ih =>
      simp only [play, List.foldlM_cons, Option.bind_eq_bind, Option.bind_eq_some_iff] at h
      obtain ⟨q, hq, h⟩ := h
      exact (act_reaches hq).trans (ih h)

/-- The pool that a schedule leads to, if all of it can be run. -/
def played (prog : ρ → Program S ε α) (p : Pool M ρ ε α) (acts : List (Act ρ)) : Pool M ρ ε α :=
  (p.play prog acts).getD p

theorem played_reaches (prog : ρ → Program S ε α) (p : Pool M ρ ε α) (acts : List (Act ρ)) :
    Reaches prog p (p.played prog acts) := by
  cases h : p.play prog acts with
  | none => simpa [played, h] using Relation.ReflTransGen.refl
  | some q => simpa [played, h] using play_reaches h

end Pool

end SecureIam.Lib
