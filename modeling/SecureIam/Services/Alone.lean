import SecureIam.Services.Discipline
import SecureIam.Services.Runs

/-!
Calls that are served one after the other. None of them ever has to wait, since each
gives up its locks when it ends.
-/
namespace SecureIam
open Lib
variable {env : Environment} {p p' : Calls env} {req : Request} {out : Except Error Response}

/-- No session but `i` holds a lock. -/
def HeldBy (i : Nat) (g : Database) : Prop := ∀ k j, g.locks k = some j → j = i

section Statements
variable {n i : Nat} {o : Stmt} {g g' : Database} {l l' : Session}

theorem heldBy_exec {r : o.Res} (h : HeldBy i g) (hexec : exec env n i o g l = some (r, g', l')) :
    HeldBy i g' := by
  intro k j hk
  cases (exec_effect hexec).locks hk with
  | inl hold => exact h k j hold
  | inr hj => exact hj

theorem exec_of_heldBy (h : HeldBy i g) (env : Environment) (n : Nat) (o : Stmt) (l : Session) :
    ∃ x, exec env n i o g l = some x := by
  refine exec_isSome fun w _ _ k _ => ?_
  cases hk : g.locks k with
  | none => exact .inl hk
  | some j => exact .inr (h k j hk ▸ hk)

end Statements

namespace Calls

/-- No call is in the middle of a transaction. -/
def Quiet (p : Calls env) : Prop := ∀ k, p.world.shared.locks k = none

theorem quiet_fresh (t : Tables) : (Calls.fresh env t).Quiet := fun _ => rfl

theorem Quiet.heldBy (h : p.Quiet) (i : Nat) : HeldBy i p.world.shared := by
  intro k j hk
  cases (h k).symm.trans hk

/-- A call that nobody disturbs is served to its end. -/
theorem Quiet.served (h : p.Quiet) (req : Request) : ∃ out p', Served (serve env) p req out p' := by
  have hstep : ∀ (o : Stmt) (l : (machine env).Local) (w : History env Request), True →
      HeldBy p.threads.length w.shared → ∃ r w' l', w.exec p.threads.length req o l = some
      (r, w', l') ∧
        HeldBy p.threads.length w'.shared := by
    intro o l w _ hw
    obtain ⟨x, hx⟩ := exec_of_heldBy hw env w.trace.length o l
    exact ⟨_, _, _, World.exec_eq_some.mpr ⟨_, hx, rfl⟩, heldBy_exec hw hx⟩
  obtain ⟨out, l, w, hrun, -⟩ := Program.run_total hstep (Program.all_trivial (serve env req))
    (l := (machine env).start) (w := p.world) (h.heldBy _)
  exact ⟨out, _, l, w, hrun, rfl⟩

/-- Its last statement, the rollback of the session, gives up all locks. -/
theorem Quiet.of_served (h : p.Quiet) (hs : Served (serve env) p req out p') : p'.Quiet := by
  obtain ⟨l, w, hrun, rfl⟩ := hs.ran
  obtain ⟨out', stop, l₁, w₁, hcall, hrollback, -⟩ := Program.run_ensure hrun
  have hheld : HeldBy p.threads.length w₁.shared := by
    refine Program.run_keeps (I := fun (_ : Session) (w : History env Request) =>
      HeldBy p.threads.length w.shared) ?_ (Program.all_trivial (call env req)) (h.heldBy _) hcall
    intro o l w r w' l' _ hw hexec
    obtain ⟨g, hg, hshared, -⟩ := World.exec_step hexec
    exact hshared ▸ heldBy_exec hw hg
  intro k
  simp only [App.rollback, App.issue, Program.issue, Program.run] at hrollback
  split at hrollback
  · cases hrollback
  · rename_i r w₂ l₂ hexec
    obtain ⟨g, hg, hshared, -⟩ := World.exec_step hexec
    simp only [Option.some.injEq, Prod.mk.injEq] at hrollback
    obtain ⟨-, -, rfl⟩ := hrollback
    obtain ⟨rfl, -⟩ : w₁.shared.rollback p.threads.length = g ∧ {} = l₂ := by simpa [exec] using hg
    refine Option.eq_none_iff_forall_ne_some.mpr fun j hk => ?_
    rw [hshared] at hk
    obtain ⟨hlocked, hne⟩ := Store.unlock_eq_some.mp hk
    exact hne (hheld k j hlocked)

theorem Quiet.of_serial {calls : List (Request × Except Error Response)} (h : p.Quiet)
    (hs : Serial (serve env) p calls p') : p'.Quiet := by
  induction hs with
  | nil p => exact h
  | cons hs _ ih => exact ih (h.of_served hs)

/-- Such a call is evaluated on the committed tables. -/
theorem Quiet.served_as (h : p.Quiet) (hp : p.Sound) {s : Solo}
    (he : Ends env (serve env req) (.start p.world.trace.length p.tables) out s) :
    ∃ p' : Calls env, Served (serve env) p req out p' ∧ p'.tables = s.committed ∧
      p'.world.trace.length = s.step := by
  obtain ⟨out', p', hs⟩ := h.served req
  obtain ⟨l, w, hrun, rfl⟩ := hs.ran
  obtain ⟨rfl, hdescribes⟩ := solo_run hp.inv.schema (fun e he => Nat.ne_of_lt (hp.owner e he))
    he hrun
  exact ⟨_, hs, hdescribes.fits.committed, hdescribes.step⟩

end Calls

/-- A new session has no objects of its own. -/
theorem start_object (τ : Table) (r : τ.Row) : ({} : Session).object τ r = r := by
  cases τ <;> rfl

/-- What a repository function returns to a new session. -/
def Calls.Reads {α : Type} (p : Calls env) (f : App α) (a : α) : Prop :=
  ∀ req, ∃ l w, f.run p.threads.length req (machine env).start p.world = some (.ok a, l, w)

theorem Calls.reads_select (p : Calls env) (τ : Table) (q : Tables → List τ.Row) :
    p.Reads (App.select τ q) (q p.tables) := by
  intro req
  have hrows : (q p.tables).map (({} : Session).object τ) = q p.tables :=
    (List.map_congr_left fun r _ => start_object τ r).trans (List.map_id' _)
  exact ⟨_, _, congrArg (fun rows => some (Except.ok rows, _, _)) hrows⟩

theorem Calls.Reads.unique {α : Type} {f : App α} {a a' : α} (h : p.Reads f a) (h' : p.Reads f a') :
    a = a' := by
  obtain ⟨l, w, hrun⟩ := h (.listMembers ⟨0⟩)
  obtain ⟨l', w', hrun'⟩ := h' (.listMembers ⟨0⟩)
  have heq := Option.some.inj (hrun.symm.trans hrun')
  exact Except.ok.inj (congrArg Prod.fst heq)

/-- Evaluates requests one after the other. -/
def Solo.serveAll (env : Environment) :
    List Request → Solo → Option (List (Request × Except Error Response) × Solo)
  | [], s => some ([], s)
  | req :: reqs, s =>
      match (serve env req).eval (Solo.exec env) s with
      | none => none
      | some (out, s') =>
          (Solo.serveAll env reqs (.start s'.step s'.committed)).map fun (calls, s'') =>
            ((req, out) :: calls, s'')

namespace Calls

theorem Quiet.serial_as {reqs : List Request} {calls : List (Request × Except Error Response)}
    {s : Solo} (h : p.Quiet) (hp : p.Sound)
    (he : Solo.serveAll env reqs (.start p.world.trace.length p.tables) = some (calls, s)) :
    ∃ p' : Calls env, Serial (serve env) p calls p' ∧ p'.tables = s.committed ∧
      p'.world.trace.length = s.step := by
  induction reqs generalizing p calls with
  | nil =>
      cases he
      exact ⟨p, .nil p, rfl, rfl⟩
  | cons req reqs ih =>
      simp only [Solo.serveAll] at he
      split at he
      · cases he
      · rename_i out s₁ hcall
        obtain ⟨⟨rest, s'⟩, hrest, heq⟩ := Option.map_eq_some_iff.mp he
        cases heq
        obtain ⟨q, hs, htables, hlength⟩ := h.served_as hp hcall
        rw [← htables, ← hlength] at hrest
        obtain ⟨p', hserial, hp'⟩ := ih (h.of_served hs) (hp.reaches hs.reaches) hrest
        exact ⟨p', .cons hs hserial, hp'⟩

end Calls

end SecureIam
