import SecureIam.Db.Results
import SecureIam.Repositories.Basic

/-!
Who may write what, and where rows come from. Whatever the programs are: if each request only
writes what it may, so does every commit; and every row was there at the start or was inserted
by a statement of the run, so an id stands for one row for ever.
-/
namespace SecureIam
open Lib
variable {ρ : Type} {env : Environment} {t₀ : Tables}

/-- The row that the statement has inserted. -/
def Lib.Entry.inserted (e : Entry (machine env) ρ) : Option Write :=
  match e.op, e.result with
  | .insert τ _, some x => some (.insert τ x)
  | _, _ => none

/-- What is known of a row that never changes: it was there at the start, or a statement of
the run has inserted it. -/
def Born (t₀ : Tables) (w : History env ρ) (τ : Table) (x : τ.Row) : Prop :=
  (∃ y ∈ t₀.rows τ, τ.fixed y = τ.fixed x) ∨
    ∃ e ∈ w.trace, ∃ y, e.inserted = some (.insert τ y) ∧ τ.fixed y = τ.fixed x

theorem Born.mono {w w' : History env ρ} {τ : Table} {x : τ.Row} (h : Born t₀ w τ x)
    (htrace : w.trace ⊆ w'.trace) : Born t₀ w' τ x :=
  h.imp_right fun hdrawn => by
    obtain ⟨e, he, hrest⟩ := hdrawn
    exact ⟨e, htrace he, hrest⟩

structure Provenance (t₀ : Tables) (w : History env ρ) : Prop where
  born : ∀ τ, ∀ x ∈ w.shared.state.rows τ, Born t₀ w τ x
  drawn : ∀ e ∈ w.trace, ∀ τ y, e.inserted = some (.insert τ y) →
    ∀ id, .primary τ id ∈ τ.keys y → id = env.uuid e.step

section Rows
variable {w : Write} {t : Tables} {τ : Table} {x : τ.Row}

/-- A write brings no row but the one that it inserts. -/
theorem Write.row_of_apply (h : x ∈ (w.apply t).rows τ) :
    (∃ y ∈ t.rows τ, τ.fixed y = τ.fixed x) ∨ w = .insert τ x := by
  obtain ⟨f, hacts, hf⟩ := w.apply_acts τ
  rw [hf] at h
  cases hacts with
  | keep => exact .inl ⟨x, h, rfl⟩
  | insert r hw =>
      cases List.mem_append.mp h with
      | inl h => exact .inl ⟨x, h, rfl⟩
      | inr h => exact .inr (List.mem_singleton.mp h ▸ hw)
  | delete p => exact .inl ⟨x, (List.mem_filter.mp h).1, rfl⟩
  | update id f hw hfix =>
      obtain ⟨y, hy, rfl⟩ := List.mem_map.mp h
      exact .inl ⟨y, hy, (hfix y).symm⟩

theorem Write.row_of_view {ws : List Write} (h : x ∈ (Store.view (T := tableStore) ws t).rows τ) :
    (∃ y ∈ t.rows τ, τ.fixed y = τ.fixed x) ∨
      ∃ y, .insert τ y ∈ ws ∧ τ.fixed y = τ.fixed x := by
  induction ws generalizing t with
  | nil => exact .inl ⟨x, h, rfl⟩
  | cons w ws ih =>
      cases ih h with
      | inr hlater =>
          obtain ⟨y, hy, hfixed⟩ := hlater
          exact .inr ⟨y, List.mem_cons_of_mem w hy, hfixed⟩
      | inl hfound =>
          obtain ⟨y, hy, hfixed⟩ := hfound
          cases row_of_apply hy with
          | inl hbefore =>
              obtain ⟨z, hz, hfixed'⟩ := hbefore
              exact .inl ⟨z, hz, hfixed'.trans hfixed⟩
          | inr hw => exact .inr ⟨y, hw ▸ List.mem_cons_self, hfixed⟩

end Rows

/-- An id stands for one row, at whatever times it is met. -/
theorem Born.unique {w : History env ρ} {τ : Table} {x y : τ.Row} {id : Uuid}
    (h₀ : t₀.Schema) (hundrawn : ∀ m τ, ¬ t₀.hasKey (.primary τ (env.uuid m)))
    (hw : Provenance t₀ w) (hplaced : w.Placed) (hx : Born t₀ w τ x) (hy : Born t₀ w τ y)
    (hxid : .primary τ id ∈ τ.keys x) (hyid : .primary τ id ∈ τ.keys y) :
    τ.fixed x = τ.fixed y := by
  have hkeys : ∀ {z z' : τ.Row}, τ.fixed z = τ.fixed z' → .primary τ id ∈ τ.keys z' →
      .primary τ id ∈ τ.keys z := by
    intro z z' hfixed hz
    rwa [← Table.keys_fixed, hfixed, Table.keys_fixed]
  have hmixed : ∀ {z : τ.Row} {e : Entry (machine env) ρ} {z' : τ.Row}, z ∈ t₀.rows τ →
      e ∈ w.trace → e.inserted = some (.insert τ z') → .primary τ id ∈ τ.keys z →
      .primary τ id ∈ τ.keys z' → False := by
    intro z e z' hz he hinserted hkey hkey'
    have hid := hw.drawn e he τ z' hinserted id hkey'
    exact hundrawn e.step τ (hid ▸ Tables.hasKey_iff.mpr ⟨τ, z, hz, hkey⟩)
  cases hx with
  | inl hx =>
      obtain ⟨x₀, hx₀, hfixed⟩ := hx
      cases hy with
      | inl hy =>
          obtain ⟨y₀, hy₀, hfixed'⟩ := hy
          rw [← hfixed, ← hfixed', h₀.row_unique hx₀ hy₀ (hkeys hfixed hxid) (hkeys hfixed' hyid)]
      | inr hy =>
          obtain ⟨e, he, y₀, hinserted, hfixed'⟩ := hy
          exact (hmixed hx₀ he hinserted (hkeys hfixed hxid) (hkeys hfixed' hyid)).elim
  | inr hx =>
      obtain ⟨e, he, x₀, hinserted, hfixed⟩ := hx
      cases hy with
      | inl hy =>
          obtain ⟨y₀, hy₀, hfixed'⟩ := hy
          exact (hmixed hy₀ he hinserted (hkeys hfixed' hyid) (hkeys hfixed hxid)).elim
      | inr hy =>
          obtain ⟨e', he', y₀, hinserted', hfixed'⟩ := hy
          have hid := hw.drawn e he τ x₀ hinserted id (hkeys hfixed hxid)
          have hid' := hw.drawn e' he' τ y₀ hinserted' id (hkeys hfixed' hyid)
          obtain rfl := hplaced.step_inj he he' (env.uuid_injective _ _ (hid.symm.trans hid'))
          have hsame : Write.insert τ x₀ = .insert τ y₀ :=
            Option.some.inj (hinserted.symm.trans hinserted')
          rw [← hfixed, ← hfixed', eq_of_heq (Write.insert.inj hsame).2]

/-- What a request may write, given the statements that it has got through so far. -/
structure Licence (env : Environment) (ρ : Type) where
  may : ρ → List (Entry (machine env) ρ) → Write → Prop
  mono : ∀ {req es new v}, may req es v → may req (es ++ new) v

variable {L : Licence env ρ} {i : Nat} {req : ρ} {l l' : Session} {o : Stmt} {r : o.Res}
  {u w w' : History env ρ}

/-- Whatever the session inserts, a statement of the run has inserted. -/
def Entered (l : Session) (w : History env ρ) : Prop :=
  ∀ τ y, .insert τ y ∈ l.pending → ∃ e ∈ w.trace, e.inserted = some (.insert τ y)

theorem Entered.mono (h : Entered l w) (htrace : w.trace ⊆ w'.trace) : Entered l w' := by
  intro τ y hy
  obtain ⟨e, he, hinserted⟩ := h τ y hy
  exact ⟨e, htrace he, hinserted⟩

theorem interference_trace {j : Nat} (h : Interference j w w') : w.trace ⊆ w'.trace := by
  obtain ⟨new, htrace, -⟩ := h.trace
  exact htrace ▸ List.subset_append_left _ _

theorem subset_trace_exec (h : w.exec i req o l = some (r, w', l')) : w.trace ⊆ w'.trace :=
  World.exec_trace h ▸ List.subset_append_left _ _

theorem inserted_of_exec (req : ρ) {τ : Table} {y : τ.Row} {g g' : Database} {n : Nat}
    (hexec : exec env n i o g l = some (r, g', l')) (hy : .insert τ y ∈ l'.pending) :
    .insert τ y ∈ l.pending ∨
      (⟨n, i, req, o, r, g, g'⟩ : Entry (machine env) ρ).inserted = some (.insert τ y) := by
  have hother : o.ends = true ∨ (∀ z, ¬ o.Writes (.insert τ z)) → .insert τ y ∈ l.pending := by
    intro hcases
    have heff := exec_effect hexec
    cases hends : o.ends with
    | true => simp [(heff.ended hends).2.1] at hy
    | false =>
        obtain ⟨-, -, us, hpending, hus⟩ := heff.grows hends
        rw [hpending, List.mem_append] at hy
        refine hy.resolve_right fun hy => ?_
        cases hcases with
        | inl htrue => simp [hends] at htrue
        | inr hnone => exact hnone y (hus _ hy)
  cases o with
  | insert σ draft =>
      cases r with
      | none =>
          rw [(exec_insert_none hexec).2] at hy
          exact .inl hy
      | some row =>
          rw [(exec_insert_some hexec).2, List.mem_append, List.mem_singleton] at hy
          exact hy.imp_right fun hy => congrArg some hy.symm
  | commit | rollback => exact .inl (hother (.inl rfl))
  | deleteRolePermission _ _ | deleteUserRole _ | deleteMembership _ =>
      refine .inl (hother (.inr fun z hz => ?_))
      obtain ⟨row, hrow⟩ := hz
      cases hrow
  | updateLastLoginAt _ _ | updateIsActive _ _ | revokeIfActive _ _ | updateRevokedAt _ _
  | updateReplacedBy _ _ => exact .inl (hother (.inr fun z hz => nomatch hz))
  | _ => exact .inl (hother (.inr fun z hz => hz.elim))

theorem exec_entered (hl : Entered l w) (h : w.exec i req o l = some (r, w', l')) :
    Entered l' w' := by
  obtain ⟨g, hg, hshared, htrace⟩ := World.exec_step h
  intro τ y hy
  cases inserted_of_exec req hg hy with
  | inl hy => exact hl.mono (subset_trace_exec h) τ y hy
  | inr hinserted =>
      exact ⟨_, htrace ▸ List.mem_append_right _ (List.mem_singleton_self _), hinserted⟩

theorem exec_provenance (hw : Provenance t₀ w) (hl : Entered l w)
    (h : w.exec i req o l = some (r, w', l')) : Provenance t₀ w' := by
  have hsubset := subset_trace_exec h
  obtain ⟨g, hg, hshared, htrace⟩ := World.exec_step h
  refine ⟨fun τ x hx => ?_, fun e he τ y hinserted id hid => ?_⟩
  · rw [hshared] at hx
    cases hends : o.ends with
    | false =>
        rw [((exec_effect hg).grows hends).1] at hx
        exact (hw.born τ x hx).mono hsubset
    | true =>
        cases ((exec_effect hg).ended hends).2.2 with
        | inl hstate => exact (hw.born τ x (hstate ▸ hx)).mono hsubset
        | inr hstate =>
            rw [hstate] at hx
            cases Write.row_of_view hx with
            | inl hbefore =>
                obtain ⟨y, hy, hfixed⟩ := hbefore
                have hborn := (hw.born τ y hy).mono hsubset
                exact hborn.imp (fun hstart => by
                  obtain ⟨z, hz, hfixed'⟩ := hstart
                  exact ⟨z, hz, hfixed'.trans hfixed⟩) fun hdrawn => by
                  obtain ⟨e, he, z, hinserted, hfixed'⟩ := hdrawn
                  exact ⟨e, he, z, hinserted, hfixed'.trans hfixed⟩
            | inr hpending =>
                obtain ⟨y, hy, hfixed⟩ := hpending
                obtain ⟨e, he, hinserted⟩ := hl τ y hy
                exact .inr ⟨e, hsubset he, y, hinserted, hfixed⟩
  · rw [htrace, List.mem_append, List.mem_singleton] at he
    cases he with
    | inl he => exact hw.drawn e he τ y hinserted id hid
    | inr he =>
        subst he
        cases o with
        | insert σ draft =>
            cases r with
            | none => cases hinserted
            | some row =>
                have hsame : Write.insert σ row = .insert τ y := Option.some.inj hinserted
                obtain ⟨rfl, hrow⟩ := Write.insert.inj hsame
                obtain rfl := eq_of_heq hrow
                rw [(exec_insert_some hg).1] at hid
                exact draft.drawn _ _ id hid
        | _ => cases hinserted

/-- Every commit only publishes what its request may write, and rows have their provenance. -/
def ledger (env : Environment) (t₀ : Tables) (L : Licence env ρ) : Protocol (machine env) ρ where
  inv w := Sound w ∧ Provenance t₀ w
  loc i l w := InSession i l w ∧ Entered l w
  rely := Interference
  guar i req _ w w' := schema.Published (L.may req (w.own i)) w.shared.state w'.shared.state
  rely_refl := Interference.refl
  rely_trans := Interference.trans
  loc_start hinv hnew := ⟨start_inSession hinv.1 hnew, fun _ _ hy => (nomatch hy)⟩
  loc_rely hloc hrely := ⟨hloc.1.allowed hrely.allowed, hloc.2.mono (interference_trace hrely)⟩
  loc_exec hloc hexec := ⟨exec_inSession hloc.1 hexec, exec_entered hloc.2 hexec⟩
  exec_rely hij _ hloc hexec _ _ := exec_interference hij hloc.1 hexec

/-- The session has got the statements `es` through, and all that it is about to publish is
licensed. -/
structure Abides (L : Licence env ρ) (es : List (Entry (machine env) ρ)) (i : Nat) (req : ρ)
    (l : Session) (w : History env ρ) : Prop where
  licensed : ∀ v ∈ l.pending, L.may req (w.own i) v
  own : ∃ new, w.own i = es ++ new

variable {es : List (Entry (machine env) ρ)}

theorem Abides.of_nil (h : l.pending = []) : Abides L (w.own i) i req l w :=
  ⟨by simp [h], [], (List.append_nil _).symm⟩

theorem Abides.rely (h : Abides L es i req l w) (hr : Interference i w w') :
    Abides L es i req l w' := by
  refine ⟨fun v hv => ?_, ?_⟩
  all_goals rw [hr.own]
  · exact h.licensed v hv
  · exact h.own

theorem published_same {N : Write → Prop} {t t' : Tables} (h : t' = t) :
    schema.Published N t t' :=
  h ▸ Constraints.Published.refl (C := schema) N t

/-- What a statement guarantees, and which of its writes have to be licensed. -/
theorem exec_ledger (hinv : (ledger env t₀ L).inv w) (hloc : (ledger env t₀ L).loc i l w)
    (hl : Abides L es i req l w) (h : w.exec i req o l = some (r, w', l')) :
    (ledger env t₀ L).inv w' ∧ (ledger env t₀ L).guar i req o w w' ∧
      ((∀ v, o.Writes v → v ∈ l'.pending → v ∉ l.pending → L.may req es v) →
        Abides L es i req l' w') := by
  have hown : ∃ new, w'.own i = es ++ new := by
    obtain ⟨new, hown⟩ := hl.own
    rw [World.own_exec_self h, hown, List.append_assoc]
    exact ⟨_, rfl⟩
  refine ⟨⟨exec_sound hinv.1 hloc.1 h, exec_provenance hinv.2 hloc.2 h⟩, ?_, fun ho => ⟨?_, hown⟩⟩
  all_goals
    have hself := World.own_exec_self h
    obtain ⟨g, hg, hshared, -⟩ := World.exec_step h
    have heff := exec_effect hg
    rw [← hshared] at heff
  · cases hends : o.ends with
    | false =>
        have hstate : w'.shared.state = w.shared.state := (heff.grows hends).1
        exact published_same hstate
    | true =>
        cases (heff.ended hends).2.2 with
        | inl hstate => exact published_same hstate
        | inr hstate => exact ⟨l.pending, hl.licensed, hloc.1.valid, hstate⟩
  · intro v hv
    cases hends : o.ends with
    | false =>
        obtain ⟨-, -, us, hpending, hus⟩ := heff.grows hends
        by_cases hbefore : v ∈ l.pending
        · exact hself ▸ L.mono (hl.licensed v hbefore)
        · have hnew := (List.mem_append.mp (hpending ▸ hv)).resolve_left hbefore
          obtain ⟨new, hown⟩ := hown
          exact hown ▸ L.mono (ho v (hus v hnew) hv hbefore)
    | true => simp [(heff.ended hends).2.1] at hv

section Rules
variable {α : Type} {Q : Protocol.Post (machine env) ρ Error α}

/-- The rule of one statement. -/
theorem wp_ledger {f : o.Res → App α} (hl : Abides L es i req l u)
    (h : ∀ v r w l', (ledger env t₀ L).Later i l u v → v.exec i req o l = some (r, w, l') →
      (ledger env t₀ L).inv w →
      ((∀ p, o.Writes p → p ∈ l'.pending → p ∉ l.pending → L.may req es p) →
        Abides L es i req l' w) →
      (ledger env t₀ L).wp i req Q (f r) l' w) :
    (ledger env t₀ L).wp i req Q ((App.issue o).bind f) l u := by
  intro v hv r w l' hexec
  obtain ⟨hinv, hguar, habides⟩ := exec_ledger hv.2.1 hv.2.2 (hl.rely hv.1) hexec
  exact ⟨hinv, hguar, h v r w l' hv hexec hinv habides⟩

/-- The rule of a query: nothing is pending, and the session has seen the tables. -/
theorem wp_seen {f : o.Res → App α} (ho : ∀ v, ¬ o.Writes v) (hl : l.pending = [])
    (h : ∀ v r w l' e, (ledger env t₀ L).Later i l u v → v.exec i req o l = some (r, w, l') →
      (ledger env t₀ L).inv w → l'.pending = [] →
      e = ⟨v.trace.length, i, req, o, r, v.shared, w.shared⟩ → w.own i = u.own i ++ [e] →
      (ledger env t₀ L).wp i req Q (f r) l' w) :
    (ledger env t₀ L).wp i req Q ((App.issue o).bind f) l u := by
  refine wp_ledger (Abides.of_nil hl) fun v r w l' hv hexec hinv _ => ?_
  refine h v r w l' _ hv hexec hinv ?_ rfl ?_
  · obtain ⟨g, hg, -, -⟩ := World.exec_step hexec
    have heff := exec_effect hg
    cases hends : o.ends with
    | true => exact (heff.ended hends).2.1
    | false =>
        obtain ⟨-, -, us, hpending, hus⟩ := heff.grows hends
        rw [hpending, hl, List.nil_append]
        exact List.eq_nil_iff_forall_not_mem.mpr fun v hv => ho v (hus v hv)
  · rw [World.own_exec_self hexec, hv.1.own]

/-- A program whose statements are all licensed from here on. -/
theorem wp_licensed {p : App α}
    (hp : p.All fun o => ∀ v, Stmt.Writes o v → L.may req es v) (hl : Abides L es i req l u) :
    (ledger env t₀ L).wp i req (fun _ => Abides L es i req) p l u := by
  refine (ledger env t₀ L).wp_of_all (J := Abides L es i req) hp (fun h hr => h.rely hr) ?_ hl
  intro o ho r l l' w w' h hinv hloc hexec
  obtain ⟨hinv', hguar, habides⟩ := exec_ledger hinv hloc h hexec
  exact ⟨hinv', hguar, habides fun v hv _ _ => ho v hv⟩

end Rules

section Runs
variable {α : Type} {Q : ρ → Nat → Protocol.Post (machine env) ρ Error α}
  {prog : ρ → Program sql Error α} {p p' : Pool (machine env) ρ Error α}

theorem ledger_start (ht : t₀.Schema) (hundrawn : ∀ m τ, ¬ t₀.hasKey (.primary τ (env.uuid m))) :
    (ledger env t₀ L).Kept Q (⟨⟨⟨t₀, fun _ => none⟩, []⟩, []⟩ : Pool (machine env) ρ Error α) := by
  refine Protocol.kept_start ⟨⟨ht, ⟨fun m τ _ => hundrawn m τ, fun _ _ _ _ hk => (nomatch hk)⟩,
    fun _ _ hk => (nomatch hk), fun n e he => ?_⟩, fun τ x hx => .inl ⟨x, hx, rfl⟩, ?_⟩ rfl
  · cases he
  · intro e he
    cases he

/-- A relation that what the requests may publish implies holds from any moment of a run to
any later one. -/
theorem ledger_across {E : Tables → Tables → Prop} {I : Tables → Prop} {R : ρ → Prop}
    (hprog : (ledger env t₀ L).Serves Q prog) (hr : Reaches prog p p')
    (h : (ledger env t₀ L).Kept Q p) (hI : ∀ {q}, Reaches prog p q → I q.world.shared.state)
    (hR : ∀ e ∈ p'.world.trace, p.world.trace.length ≤ e.step → R e.request) (refl : ∀ t, E t t)
    (trans : ∀ {t₁ t₂ t₃}, E t₁ t₂ → E t₂ t₃ → E t₁ t₃)
    (hE : ∀ {req es t t'}, R req → I t → I t' → t.Schema →
      schema.Published (L.may req es) t t' → E t t') :
    E p.world.shared.state p'.world.shared.state := by
  have hstate : ∀ {q}, Reaches prog p q → I q.world.shared.state ∧ q.world.shared.state.Schema :=
    fun hq => ⟨hI hq, (h.reaches hprog hq).inv.1.schema⟩
  exact h.across_while (E := fun w w' : History env ρ => E w.shared.state w'.shared.state)
    (I := fun w : History env ρ => I w.shared.state ∧ w.shared.state.Schema) hprog hr hstate hR
    (fun w => refl _) trans fun hreq hw hw' hpublished => hE hreq hw.1 hw'.1 hw.2 hpublished

end Runs

end SecureIam
