import SecureIam.Lib.Interleaving

/-!
Programs that run while nobody else takes a step.

A reading says what each statement returns and does to a simple state of its own;
`eval` evaluates programs by it. A simulation is checked for one statement, and then
a run of the machine ends as the evaluation says, wherever it is cut off.
-/
namespace SecureIam.Lib
variable {S : Signature} {σ ρ ε ε' α β : Type} {M : Machine S}

/-- `none` where the reading has nothing to say about a statement. -/
abbrev Reading (S : Signature) (σ : Type) := (o : S.Op) → σ → Option (S.Res o × σ)

namespace Program

def eval (step : Reading S σ) : Program S ε α → σ → Option (Except ε α × σ)
  | .ret a, s => some (.ok a, s)
  | .raise e, s => some (.error e, s)
  | .op o k, s =>
      match step o s with
      | none => none
      | some (r, s') => (k r).eval step s'

/-- The first `n` statements: where a run stands when it is cut off there. -/
def runFor (i : Nat) (req : ρ) :
    Nat → Program S ε α → M.Local → World M ρ → Option (World M ρ)
  | n + 1, .op o k, l, w =>
      match w.exec i req o l with
      | none => none
      | some (r, w', l') => (k r).runFor i req n l' w'
  | _, _, _, w => some w

section Eval
variable {step : Reading S σ} {s s' : σ}

@[simp] theorem eval_ret (a : α) : (ret a : Program S ε α).eval step s = some (.ok a, s) := rfl
@[simp] theorem eval_raise (e : ε) :
    (raise e : Program S ε α).eval step s = some (.error e, s) := rfl

theorem eval_issue {o : S.Op} {r : S.Res o} (h : step o s = some (r, s')) :
    (issue o : Program S ε _).eval step s = some (.ok r, s') := by
  simp only [issue, eval, h]

theorem eval_bind (p : Program S ε α) (f : α → Program S ε β) (s : σ) :
    (p.bind f).eval step s = (p.eval step s).bind fun
      | (.ok a, s') => (f a).eval step s'
      | (.error e, s') => some (.error e, s') := by
  induction p generalizing s with
  | ret a => rfl
  | raise e => rfl
  | op o k ih =>
      simp only [op_bind, eval]
      cases step o s with
      | none => rfl
      | some x => exact ih x.1 x.2

theorem eval_bind_ok {p : Program S ε α} {f : α → Program S ε β} {a : α}
    (h : p.eval step s = some (.ok a, s')) : (p.bind f).eval step s = (f a).eval step s' := by
  rw [eval_bind, h]
  rfl

theorem eval_bind_error {p : Program S ε α} {f : α → Program S ε β} {e : ε}
    (h : p.eval step s = some (.error e, s')) : (p.bind f).eval step s = some (.error e, s') := by
  rw [eval_bind, h]
  rfl

theorem eval_attempt {p : Program S ε α} {out : Except ε α} (h : p.eval step s = some (out, s')) :
    (p.attempt : Program S ε' _).eval step s = some (.ok out, s') := by
  induction p generalizing s with
  | ret a | raise e =>
      obtain ⟨rfl, rfl⟩ := Prod.mk.inj (Option.some.inj h)
      rfl
  | op o k ih =>
      simp only [eval, op_attempt] at h ⊢
      split at h
      · cases h
      · exact ih _ h

theorem eval_handle_ok {p : Program S ε α} {h : ε → Program S ε α} {a : α}
    (hp : p.eval step s = some (.ok a, s')) : (p.handle h).eval step s = some (.ok a, s') :=
  eval_bind_ok (eval_attempt hp)

theorem eval_handle_error {p : Program S ε α} {h : ε → Program S ε α} {e : ε}
    (hp : p.eval step s = some (.error e, s')) : (p.handle h).eval step s = (h e).eval step s' :=
  eval_bind_ok (eval_attempt hp)

theorem eval_ensure {p : Program S ε α} {q : Program S ε Unit} {out : Except ε α} {s'' : σ}
    (hp : p.eval step s = some (out, s')) (hq : q.eval step s' = some (.ok (), s'')) :
    (p.ensure q).eval step s = some (out, s'') := by
  rw [ensure, eval_bind_ok (eval_attempt hp), eval_bind_ok hq]
  cases out <;> rfl

end Eval

/-- Statements that get through return what the reading says, and lead to related states. -/
def Simulates (i : Nat) (req : ρ) (step : Reading S σ) (R : M.Local → World M ρ → σ → Prop) :
    Prop :=
  ∀ {o l w s r s' r' w' l'}, R l w s → step o s = some (r, s') →
    w.exec i req o l = some (r', w', l') → r' = r ∧ R l' w' s'

section Simulates
variable {i : Nat} {req : ρ} {step : Reading S σ} {R : M.Local → World M ρ → σ → Prop}
  {p : Program S ε α} {l l' : M.Local} {w w' : World M ρ} {s s' : σ} {out out' : Except ε α}

theorem Simulates.run (h : Simulates i req step R) (hR : R l w s)
    (he : p.eval step s = some (out, s')) (hr : p.run i req l w = some (out', l', w')) :
    out' = out ∧ R l' w' s' := by
  induction p generalizing l w s with
  | ret a | raise e =>
      simp only [Program.run, Option.some.injEq, Prod.mk.injEq] at hr
      obtain ⟨rfl, rfl, rfl⟩ := hr
      obtain ⟨rfl, rfl⟩ := Prod.mk.inj (Option.some.inj he)
      exact ⟨rfl, hR⟩
  | op o k ih =>
      simp only [Program.run] at hr
      simp only [eval] at he
      split at hr
      · cases hr
      · rename_i r₁ w₁ l₁ hexec
        split at he
        · cases he
        · rename_i r₂ s₂ hstep
          obtain ⟨rfl, hR'⟩ := h hR hstep hexec
          exact ih _ hR' he hr

/-- A cut run stands at a state that the evaluation passes through. -/
theorem Simulates.runFor {P : σ → σ → Prop} (h : Simulates i req step R) (refl : ∀ s, P s s)
    (trans : ∀ {s₁ s₂ s₃}, P s₁ s₂ → P s₂ s₃ → P s₁ s₃)
    (hP : ∀ {o s r s'}, step o s = some (r, s') → P s s') (hR : R l w s)
    (he : p.eval step s = some (out, s')) {n : Nat} (hr : p.runFor i req n l w = some w') :
    ∃ l'' s'', R l'' w' s'' ∧ P s s'' ∧ P s'' s' := by
  have ahead : ∀ {p : Program S ε α} {s}, p.eval step s = some (out, s') → P s s' := by
    intro p s he
    induction p generalizing s with
    | ret a | raise e =>
        obtain ⟨-, rfl⟩ := Prod.mk.inj (Option.some.inj he)
        exact refl s
    | op o k ih =>
        simp only [eval] at he
        split at he
        · cases he
        · rename_i r s₁ hstep
          exact trans (hP hstep) (ih r he)
  induction n generalizing p l w s with
  | zero =>
      obtain rfl : w = w' := by simpa [Program.runFor] using hr
      exact ⟨l, s, hR, refl s, ahead he⟩
  | succ n ih =>
      cases p with
      | ret a | raise e =>
          obtain rfl : w = w' := by simpa [Program.runFor] using hr
          exact ⟨l, s, hR, refl s, ahead he⟩
      | op o k =>
          simp only [Program.runFor] at hr
          simp only [eval] at he
          split at hr
          · cases hr
          · rename_i r₁ w₁ l₁ hexec
            split at he
            · cases he
            · rename_i r₂ s₂ hstep
              obtain ⟨rfl, hR'⟩ := h hR hstep hexec
              obtain ⟨l'', s'', hR'', hbefore, hafter⟩ := ih hR' he hr
              exact ⟨l'', s'', hR'', trans (hP hstep) hbefore, hafter⟩

end Simulates

/-- A program ends if none of its statements ever has to wait. -/
theorem run_total {i : Nat} {req : ρ} {N : S.Op → Prop} {I : M.Local → World M ρ → Prop}
    (hI : ∀ o l w, N o → I l w → ∃ (r : S.Res o) (w' : World M ρ) (l' : M.Local),
      w.exec i req o l = some (r, w', l') ∧ I l' w')
    {p : Program S ε α} (hp : p.All N) {l : M.Local} {w : World M ρ} (h : I l w) :
    ∃ out l' w', p.run i req l w = some (out, l', w') ∧ I l' w' := by
  induction p generalizing l w with
  | ret a => exact ⟨.ok a, l, w, rfl, h⟩
  | raise e => exact ⟨.error e, l, w, rfl, h⟩
  | op o k ih =>
      obtain ⟨r, w₁, l₁, hexec, h₁⟩ := hI o l w hp.1 h
      obtain ⟨out, l', w', hrun, h'⟩ := ih r (hp.2 r) h₁
      exact ⟨out, l', w', by simp only [Program.run, hexec, hrun], h'⟩

/-- What every statement keeps holds at the end of a run. -/
theorem run_keeps {i : Nat} {req : ρ} {N : S.Op → Prop} {I : M.Local → World M ρ → Prop}
    (hI : ∀ {o l w r w' l'}, N o → I l w → w.exec i req o l = some (r, w', l') → I l' w')
    {p : Program S ε α} (hp : p.All N) {l l' : M.Local} {w w' : World M ρ} {out : Except ε α}
    (h : I l w) (hr : p.run i req l w = some (out, l', w')) : I l' w' := by
  induction p generalizing l w with
  | ret a | raise e =>
      simp only [Program.run, Option.some.injEq, Prod.mk.injEq] at hr
      obtain ⟨-, rfl, rfl⟩ := hr
      exact h
  | op o k ih =>
      simp only [Program.run] at hr
      split at hr
      · cases hr
      · rename_i r w₁ l₁ hexec
        exact ih r (hp.2 r) (hI hp.1 h hexec) hr

theorem run_attempt {p : Program S ε α} {i : Nat} {req : ρ} {l l' : M.Local} {w w' : World M ρ}
    {out : Except ε' (Except ε α)}
    (hr : (p.attempt : Program S ε' _).run i req l w = some (out, l', w')) :
    ∃ out', p.run i req l w = some (out', l', w') ∧ out = .ok out' := by
  induction p generalizing l w with
  | ret a | raise e =>
      simp only [ret_attempt, raise_attempt, Program.run, Option.some.injEq, Prod.mk.injEq] at hr
      obtain ⟨rfl, rfl, rfl⟩ := hr
      exact ⟨_, rfl, rfl⟩
  | op o k ih =>
      simp only [op_attempt, Program.run] at hr ⊢
      split at hr
      · cases hr
      · exact ih _ hr

/-- A run ends with an error that its program can raise. -/
theorem Raises.run {P : ε → Prop} {p : Program S ε α} {i : Nat} {req : ρ} {l l' : M.Local}
    {w w' : World M ρ} {e : ε} (hp : p.Raises P)
    (hr : p.run i req l w = some (.error e, l', w')) : P e := by
  induction p generalizing l w with
  | ret a => cases hr
  | raise e' =>
      cases hr
      exact hp
  | op o k ih =>
      simp only [Program.run] at hr
      split at hr
      · cases hr
      · exact ih _ (hp _) hr

/-- The last statements of a program that ends with `q` in any case. -/
theorem run_ensure {p : Program S ε α} {q : Program S ε Unit} {i : Nat} {req : ρ} {l l' : M.Local}
    {w w' : World M ρ} {out : Except ε α} (hr : (p.ensure q).run i req l w = some (out, l', w')) :
    ∃ out' stop l₁ w₁, p.run i req l w = some (out', l₁, w₁) ∧
      q.run i req l₁ w₁ = some (stop, l', w') ∧ out = stop.bind fun _ => out' := by
  rw [ensure, run_bind] at hr
  obtain ⟨⟨out₁, l₁, w₁⟩, hattempt, hr⟩ := Option.bind_eq_some_iff.mp hr
  obtain ⟨out', hp, rfl⟩ := run_attempt hattempt
  simp only [run_bind] at hr
  obtain ⟨⟨stop, l₂, w₂⟩, hq, hr⟩ := Option.bind_eq_some_iff.mp hr
  cases stop with
  | error e =>
      simp only [Option.some.injEq, Prod.mk.injEq] at hr
      obtain ⟨rfl, rfl, rfl⟩ := hr
      exact ⟨out', _, l₁, w₁, hp, hq, rfl⟩
  | ok _ =>
      cases out' <;>
        simp only [ofExcept, Program.run, Option.some.injEq, Prod.mk.injEq] at hr <;>
        obtain ⟨rfl, rfl, rfl⟩ := hr <;>
        exact ⟨_, _, l₁, w₁, hp, hq, rfl⟩

end Program

/-- A request arrives and is served to its end while nobody else takes a step. -/
structure Served (prog : ρ → Program S ε α) (p : Pool M ρ ε α) (req : ρ) (out : Except ε α)
    (p' : Pool M ρ ε α) : Prop where
  ran : ∃ l w, (prog req).run p.threads.length req M.start p.world = some (out, l, w) ∧
    p' = ⟨w, p.threads ++ [⟨req, l, .ofExcept out⟩]⟩

theorem Served.reaches {prog : ρ → Program S ε α} {p p' : Pool M ρ ε α} {req : ρ}
    {out : Except ε α} (h : Served prog p req out p') : Reaches prog p p' := by
  obtain ⟨l, w, hrun, rfl⟩ := h.ran
  refine .head (.spawn p req) ?_
  have hreaches : Reaches prog ⟨p.world, p.threads ++ [⟨req, M.start, prog req⟩]⟩ _ :=
    Program.run_reaches prog hrun (by simp)
  simpa using hreaches

theorem Served.of_run {prog : ρ → Program S ε α} {p : Pool M ρ ε α} {req : ρ} {out : Except ε α}
    (h : ((prog req).run p.threads.length req M.start p.world).map (·.1) = some out) :
    ∃ p', Served prog p req out p' := by
  obtain ⟨⟨out', l, w⟩, hrun, rfl⟩ := Option.map_eq_some_iff.mp h
  exact ⟨_, l, w, hrun, rfl⟩

theorem Served.of_run_world {prog : ρ → Program S ε α} {p : Pool M ρ ε α} {req : ρ}
    {out : Except ε α} {f : World M ρ → Bool}
    (h : ((prog req).run p.threads.length req M.start p.world).map (fun x => (x.1, f x.2.2)) = some
      (out, true)) :
    ∃ p', Served prog p req out p' ∧ f p'.world = true := by
  obtain ⟨⟨out', l, w⟩, hrun, heq⟩ := Option.map_eq_some_iff.mp h
  obtain ⟨rfl, hf⟩ := Prod.mk.inj heq
  exact ⟨_, ⟨l, w, hrun, rfl⟩, hf⟩

/-- A request has one outcome. -/
theorem Served.unique {prog : ρ → Program S ε α} {p p' p'' : Pool M ρ ε α} {req : ρ}
    {out out' : Except ε α} (h : Served prog p req out p') (h' : Served prog p req out' p'') :
    out = out' ∧ p' = p'' := by
  obtain ⟨l, w, hrun, rfl⟩ := h.ran
  obtain ⟨l', w', hrun', rfl⟩ := h'.ran
  rw [hrun] at hrun'
  simp only [Option.some.injEq, Prod.mk.injEq] at hrun'
  obtain ⟨rfl, rfl, rfl⟩ := hrun'
  exact ⟨rfl, rfl⟩

/-- Requests that are served one after the other. -/
inductive Serial (prog : ρ → Program S ε α) :
    Pool M ρ ε α → List (ρ × Except ε α) → Pool M ρ ε α → Prop
  | nil (p : Pool M ρ ε α) : Serial prog p [] p
  | cons {p q p' : Pool M ρ ε α} {req : ρ} {out : Except ε α} {rest : List (ρ × Except ε α)}
      (h : Served prog p req out q) (hrest : Serial prog q rest p') :
      Serial prog p ((req, out) :: rest) p'

theorem Serial.reaches {prog : ρ → Program S ε α} {p p' : Pool M ρ ε α}
    {calls : List (ρ × Except ε α)} (h : Serial prog p calls p') : Reaches prog p p' := by
  induction h with
  | nil p => exact .refl
  | cons h _ ih => exact h.reaches.trans ih

theorem Serial.append {prog : ρ → Program S ε α} {p q p' : Pool M ρ ε α}
    {calls rest : List (ρ × Except ε α)} (h : Serial prog p calls q)
    (hrest : Serial prog q rest p') :
    Serial prog p (calls ++ rest) p' := by
  induction h with
  | nil p => exact hrest
  | cons h _ ih => exact .cons h (ih hrest)

theorem Serial.split {prog : ρ → Program S ε α} {p p' : Pool M ρ ε α}
    {calls rest : List (ρ × Except ε α)} (h : Serial prog p (calls ++ rest) p') :
    ∃ q, Serial prog p calls q ∧ Serial prog q rest p' := by
  induction calls generalizing p with
  | nil => exact ⟨p, .nil p, h⟩
  | cons c calls ih =>
      cases h with
      | cons hserved h =>
          obtain ⟨q, hcalls, hrest⟩ := ih h
          exact ⟨q, .cons hserved hcalls, hrest⟩

/-- The requests determine the outcomes. -/
theorem Serial.unique {prog : ρ → Program S ε α} {p p' p'' : Pool M ρ ε α}
    {calls calls' : List (ρ × Except ε α)} (h : Serial prog p calls p')
    (h' : Serial prog p calls' p'') (heq : calls.map (·.1) = calls'.map (·.1)) :
    calls = calls' ∧ p' = p'' := by
  induction h generalizing calls' p'' with
  | nil p =>
      cases h' with
      | nil => exact ⟨rfl, rfl⟩
      | cons h' hrest' => cases heq
  | cons h hrest ih =>
      cases h' with
      | nil => cases heq
      | cons h' hrest' =>
          obtain ⟨rfl, htail⟩ := List.cons.inj heq
          obtain ⟨rfl, rfl⟩ := h.unique h'
          obtain ⟨rfl, rfl⟩ := ih hrest' htail
          exact ⟨rfl, rfl⟩

/-- Serves requests one after the other, as long as none of them has to wait. -/
def Pool.serveAll (prog : ρ → Program S ε α) :
    List ρ → Pool M ρ ε α → Option (List (ρ × Except ε α) × Pool M ρ ε α)
  | [], p => some ([], p)
  | req :: reqs, p =>
      match (prog req).run p.threads.length req M.start p.world with
      | none => none
      | some (out, l, w) =>
          (Pool.serveAll prog reqs ⟨w, p.threads ++ [⟨req, l, .ofExcept out⟩]⟩).map
            fun (calls, p') => ((req, out) :: calls, p')

theorem Pool.serial_serveAll {prog : ρ → Program S ε α} {reqs : List ρ} {p p' : Pool M ρ ε α}
    {calls : List (ρ × Except ε α)} (h : p.serveAll prog reqs = some (calls, p')) :
    Serial prog p calls p' := by
  induction reqs generalizing p calls with
  | nil =>
      cases h
      exact .nil _
  | cons req reqs ih =>
      simp only [Pool.serveAll] at h
      split at h
      · cases h
      · rename_i out l w hrun
        obtain ⟨⟨rest, p'⟩, hrest, heq⟩ := Option.map_eq_some_iff.mp h
        cases heq
        exact .cons ⟨l, w, hrun, rfl⟩ (ih hrest)

theorem Serial.of_serveAll {prog : ρ → Program S ε α} {p : Pool M ρ ε α}
    {calls : List (ρ × Except ε α)}
    (h : (p.serveAll prog (calls.map (·.1))).map (·.1) = some calls) :
    ∃ p', Serial prog p calls p' := by
  obtain ⟨⟨calls', p'⟩, hserve, rfl⟩ := Option.map_eq_some_iff.mp h
  exact ⟨p', Pool.serial_serveAll hserve⟩

theorem Serial.of_serveAll_pool {prog : ρ → Program S ε α} {p : Pool M ρ ε α}
    {calls : List (ρ × Except ε α)} {f : Pool M ρ ε α → Bool}
    (h : (p.serveAll prog (calls.map (·.1))).map (fun x => (x.1, f x.2)) = some (calls, true)) :
    ∃ p', Serial prog p calls p' ∧ f p' = true := by
  obtain ⟨⟨calls', p'⟩, hserve, heq⟩ := Option.map_eq_some_iff.mp h
  obtain ⟨rfl, hf⟩ := Prod.mk.inj heq
  exact ⟨p', Pool.serial_serveAll hserve, hf⟩

end SecureIam.Lib
