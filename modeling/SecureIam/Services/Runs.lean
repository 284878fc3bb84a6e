import SecureIam.Lib.Protocol
import SecureIam.Repositories.Solo
import SecureIam.Services.Requests

/-!
Runs of calls from any tables that satisfy the keys and foreign keys, in which any
call may be served alone or cut off.
-/
namespace SecureIam
open Lib
variable {env : Environment}

/-- What holds of every run, whatever the calls are: constraints, locks and fresh ids. -/
def soundProtocol (env : Environment) : Protocol (machine env) Request where
  inv := Sound
  loc := InSession
  rely := Interference
  guar _ _ _ _ _ := True
  rely_refl := Interference.refl
  rely_trans := Interference.trans
  loc_start hinv hnew := start_inSession hinv hnew
  loc_rely hloc hrely := hloc.allowed hrely.allowed
  loc_exec hloc hexec := exec_inSession hloc hexec
  exec_rely hij _ hloc hexec _ _ := exec_interference hij hloc hexec

theorem serve_sound (env : Environment) :
    (soundProtocol env).Serves (fun _ _ _ _ _ => True) (serve env) := by
  intro req i w hw hnew
  refine (soundProtocol env).wp_of_all (J := fun _ _ => True) (Program.all_trivial _)
    (fun _ _ => trivial) ?_ trivial
  intro o _ r l l' w w' _ hinv hloc hexec
  exact ⟨exec_sound hinv hloc hexec, trivial, trivial⟩

/-- Tables that a run may start from. -/
structure Tables.Ready (env : Environment) (t : Tables) : Prop where
  schema : t.Schema
  undrawn : ∀ m τ, ¬ t.hasKey (.primary τ (env.uuid m))

theorem Tables.Seeded.ready {t : Tables} (h : t.Seeded env) : t.Ready env := ⟨h.schema, h.undrawn⟩

/-- Two users, an organization with its role, a global role, and one permission. -/
def smallTables : Tables where
  users := [⟨⟨1⟩, "a", "p", true, 0, none⟩, ⟨⟨3⟩, "b", "p", true, 0, none⟩]
  roles := [⟨⟨5⟩, "reader", none, false, none⟩, ⟨⟨7⟩, "member", none, false, some ⟨9⟩⟩]
  permissions := [⟨⟨11⟩, "doc", "read", none⟩]
  rolePermissions := [⟨⟨5⟩, ⟨11⟩⟩, ⟨⟨7⟩, ⟨11⟩⟩]
  userRoles := [⟨⟨13⟩, ⟨1⟩, ⟨7⟩, some ⟨9⟩⟩]
  organizations := [⟨⟨9⟩, "org", 0⟩]
  memberships := [⟨⟨15⟩, ⟨1⟩, ⟨9⟩, 0⟩]

theorem smallTables_ready : smallTables.Ready plainEnvironment := by
  refine ⟨⟨fun τ => ?_, fun τ => ?_⟩, fun m τ => ?_⟩
  · cases τ <;> decide
  · cases τ <;> decide
  · cases τ <;> simp [smallTables, Tables.hasKey, Tables.rows, LockKey.table, Table.keys,
      plainEnvironment] <;>
      omega

theorem serve_ends {req : Request} {s s' : Solo} {out : Except Error Response}
    (h : Ends env (call env req) s out s') :
    Ends env (serve env req) s out ⟨s'.step + 1, none, s'.before, s'.committed, s'.committed⟩ :=
  Program.eval_ensure h rfl

namespace Calls
variable {p p' : Calls env} {req : Request} {out out' : Except Error Response}

/-- The committed tables. -/
abbrev tables (p : Calls env) : Tables := p.world.shared.state

def Sound (p : Calls env) : Prop := (soundProtocol env).Kept (fun _ _ _ _ _ => True) p

theorem sound_fresh {t : Tables} (h : t.Ready env) : (Calls.fresh env t).Sound := by
  refine Protocol.kept_start ?_ rfl
  refine ⟨h.schema, ⟨fun m τ _ => h.undrawn m τ, fun _ _ _ _ hk => nomatch hk⟩,
    fun _ _ hk => (nomatch hk), fun n e he => ?_⟩
  cases he

theorem Sound.reaches (h : p.Sound) (hr : Reaches (serve env) p p') : p'.Sound :=
  Protocol.Kept.reaches (serve_sound env) hr h

theorem Reachable.sound (h : p.Reachable) : p.Sound := by
  obtain ⟨t, ht, hr⟩ := h
  exact (sound_fresh ht.ready).reaches hr

/-- A call that starts now finds the committed tables, and nothing is pending on them. -/
theorem Sound.settled (h : p.Sound) :
    (Solo.start p.world.trace.length p.tables).Settled env p.tables [] :=
  ⟨⟨h.inv.schema, h.inv.fresh.undrawn⟩, rfl, rfl, rfl⟩

/-- A call that is served alone ends as the reading of its program says. -/
theorem served_ends (hp : p.tables.Schema) (howner : ∀ e ∈ p.world.trace, e.pid < p.threads.length)
    {s : Solo} (he : Ends env (serve env req) (.start p.world.trace.length p.tables) out s)
    (hs : Served (serve env) p req out' p') : out' = out ∧ p'.tables = s.committed := by
  obtain ⟨l, w, hrun, rfl⟩ := hs.ran
  obtain ⟨hout, hdescribes⟩ := solo_run hp (fun e he => Nat.ne_of_lt (howner e he)) he hrun
  exact ⟨hout, hdescribes.fits.committed⟩

theorem Sound.served (h : p.Sound) {s : Solo}
    (he : Ends env (serve env req) (.start p.world.trace.length p.tables) out s)
    (hs : Served (serve env) p req out' p') : out' = out ∧ p'.tables = s.committed :=
  served_ends h.inv.schema h.owner he hs

/-- The versions of the tables that a call leaves: the last of them is committed when it ends. -/
theorem Sound.served_leaves (h : p.Sound) {s : Solo} {versions : List Tables}
    (he : Ends env (call env req) (.start p.world.trace.length p.tables) out s)
    (hleaves : s.Leaves env versions) (hs : Served (serve env) p req out' p') :
    out' = out ∧ versions.head? = some p'.tables ∧ p'.world.trace.length = s.step + 1 := by
  obtain ⟨l, w, hrun, rfl⟩ := hs.ran
  obtain ⟨hout, hdescribes⟩ := solo_run h.inv.schema (fun e he => Nat.ne_of_lt (h.owner e he))
    (serve_ends he) hrun
  refine ⟨hout, ?_, hdescribes.step⟩
  rw [← hleaves.versions]
  exact congrArg some hdescribes.fits.committed.symm

/-- A new call is cut off before its statement number `n`: that statement failed, or the
process stopped. What is committed then stays; what is not is rolled back. -/
def Cut (p : Calls env) (req : Request) (n : Nat) (w : History env Request) : Prop :=
  (serve env req).runFor p.threads.length req n (machine env).start p.world = some w

theorem exists_cut {n : Nat} {f : History env Request → Bool}
    (h : ((serve env req).runFor p.threads.length req n (machine env).start p.world).any f = true) :
    ∃ w, p.Cut req n w ∧ f w = true :=
  (Option.any_eq_true _ _).mp h

theorem Sound.cut (h : p.Sound) {s : Solo} {n : Nat} {w : History env Request}
    (he : Ends env (serve env req) (.start p.world.trace.length p.tables) out s)
    (hcut : p.Cut req n w) : ∃ before, w.commits p.threads.length = before.length ∧
      (w.shared.state :: before) <:+ (s.committed :: s.before) :=
  solo_runFor h.inv.schema (fun e he => Nat.ne_of_lt (h.owner e he)) he hcut

theorem Sound.cut_leaves (h : p.Sound) {s : Solo} {versions : List Tables} {n : Nat}
    {w : History env Request}
    (he : Ends env (call env req) (.start p.world.trace.length p.tables) out s)
    (hleaves : s.Leaves env versions) (hcut : p.Cut req n w) :
    ∃ before, w.commits p.threads.length = before.length ∧ (w.shared.state :: before)
      <:+ versions := by
  have hversions := h.cut (serve_ends he) hcut
  rwa [← hleaves.versions]

end Calls

end SecureIam
