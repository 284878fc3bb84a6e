import SecureIam.Lib.Protocol

/-!
Watching what threads do: which statements a request may issue, given what its thread has
seen so far. The watch asks nothing of the states, so it can be kept over any protocol that
every statement keeps.
-/
namespace SecureIam.Lib.Protocol
variable {S : Signature} {ρ ε ε' α β : Type} {M : Machine S} {P : Protocol M ρ}

def watching (P : Protocol M ρ) (may : ρ → List (Entry M ρ) → S.Op → Prop) : Protocol M ρ where
  inv := P.inv
  loc := P.loc
  rely := P.rely
  guar i req o w w' := P.guar i req o w w' ∧ may req (w.own i) o
  rely_refl := P.rely_refl
  rely_trans := P.rely_trans
  loc_start := P.loc_start
  loc_rely := P.loc_rely
  loc_exec := P.loc_exec
  exec_rely hij hinv hloc hexec hinv' hguar := P.exec_rely hij hinv hloc hexec hinv' hguar.1

/-- Every statement keeps the protocol, and no thread writes the trace of another. -/
structure Free (P : Protocol M ρ) : Prop where
  keeps : ∀ {i req o l l' w w'} {r : S.Res o}, P.inv w → P.loc i l w →
    w.exec i req o l = some (r, w', l') → P.inv w' ∧ P.guar i req o w w'
  own : ∀ {i w w'}, P.rely i w w' → w'.own i = w.own i

variable {may : ρ → List (Entry M ρ) → S.Op → Prop} {i : Nat} {req : ρ} {l : M.Local}
  {u : World M ρ}

theorem Free.watch_op (hP : P.Free) {Q : Post M ρ ε α} {o : S.Op} {k : S.Res o → Program S ε α}
    (hmay : may req (u.own i) o)
    (hk : ∀ w r w' l', P.Later i l u w → w.exec i req o l = some (r, w', l') →
      (P.watching may).wp i req Q (k r) l' w') :
    (P.watching may).wp i req Q (.op o k) l u := by
  intro w hw r w' l' hexec
  obtain ⟨hinv, hguar⟩ := hP.keeps hw.2.1 hw.2.2 hexec
  have hown : w.own i = u.own i := hP.own hw.1
  exact ⟨hinv, ⟨hguar, hown ▸ hmay⟩, hk w r w' l' hw hexec⟩

/-- A program whose statements are all allowed, however long it has run. -/
theorem Free.watch_all (hP : P.Free) {p : Program S ε α} {N : S.Op → Prop}
    {es : List (Entry M ρ)} (hp : p.All N)
    (hN : ∀ o, N o → ∀ new, may req (es ++ new) o) (hes : es <+: u.own i) :
    (P.watching may).wp i req (fun _ _ _ => True) p l u := by
  induction p generalizing l u with
  | ret a | raise e => exact fun _ _ => trivial
  | op o k ih =>
      obtain ⟨new, hnew⟩ := hes
      refine hP.watch_op (hnew ▸ hN o hp.1 new) fun w r w' l' hw hexec => ?_
      refine ih r (hp.2 r) ?_
      rw [World.own_exec_self hexec, hP.own hw.1, ← hnew, List.append_assoc]
      exact List.prefix_append _ _

/-- The program that ends a request may run from everywhere. -/
theorem watch_ensure {p : Program S ε α} {q : Program S ε Unit}
    (hp : (P.watching may).wp i req (fun _ _ _ => True) p l u)
    (hq : ∀ l w, (P.watching may).wp i req (fun _ _ _ => True) q l w) :
    (P.watching may).wp i req (fun _ _ _ => True) (p.ensure q) l u := by
  refine wp_ensure (hp.mono fun out l' w' _ _ _ => ?_) fun _ _ _ => trivial
  refine (hq l' w').mono fun stop _ _ _ _ _ => ?_
  cases stop <;> trivial

end SecureIam.Lib.Protocol
