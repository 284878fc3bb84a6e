import Mathlib.Data.Set.Basic

/-!
Role-based access control with scopes.

A policy says who is active, which roles there are and where each is at home, who holds
which role in which scope, and what each role carries. Commands change one of these at a
time, each under its own condition, and decisions follow from the policy alone.
-/
namespace SecureIam.Lib.Rbac
variable {S R P O : Type*}

structure Policy (S R P O : Type*) where
  active : Set S
  roles : Set (R × Option O)
  holds : Set (S × R × Option O)
  carries : Set (R × P)

inductive Command (S R P O : Type*) where
  | enroll (s : S)
  | suspend (s : S)
  | define (r : R) (home : Option O)
  | assign (s : S) (r : R) (o : Option O)
  | revoke (s : S) (r : R) (o : Option O)
  | grant (r : R) (p : P)
  | withdraw (r : R) (p : P)

/-- What is said of no scope is said of all. -/
def Covers (held asked : Option O) : Prop := held = none ∨ held = asked

namespace Policy
variable {π : Policy S R P O} {s s' : S} {r r' : R} {p p' : P} {o o' : Option O}

def Grants (π : Policy S R P O) (s : S) (p : P) (o : Option O) : Prop :=
  ∃ r held, (s, r, held) ∈ π.holds ∧ Covers held o ∧ (r, p) ∈ π.carries

def Allows (π : Policy S R P O) (s : S) (p : P) (o : Option O) : Prop :=
  s ∈ π.active ∧ π.Grants s p o

end Policy

namespace Command
variable {π : Policy S R P O} {c : Command S R P O} {s s' : S} {r r' : R} {p p' : P}
  {o o' : Option O}

/-- When the command may be carried out. -/
def Enabled (π : Policy S R P O) : Command S R P O → Prop
  | enroll s => s ∉ π.active
  | suspend s => s ∈ π.active
  | define r _ => ∀ home, (r, home) ∉ π.roles
  | assign s r o => (∃ home, (r, home) ∈ π.roles ∧ Covers home o) ∧ (s, r, o) ∉ π.holds
  | revoke s r o => (s, r, o) ∈ π.holds
  | grant r p => (∃ home, (r, home) ∈ π.roles) ∧ (r, p) ∉ π.carries
  | withdraw r p => (r, p) ∈ π.carries

def apply : Command S R P O → Policy S R P O → Policy S R P O
  | enroll s, π => { π with active := {x | x ∈ π.active ∨ x = s} }
  | suspend s, π => { π with active := {x | x ∈ π.active ∧ x ≠ s} }
  | define r home, π => { π with roles := {x | x ∈ π.roles ∨ x = (r, home)} }
  | assign s r o, π => { π with holds := {x | x ∈ π.holds ∨ x = (s, r, o)} }
  | revoke s r o, π => { π with holds := {x | x ∈ π.holds ∧ x ≠ (s, r, o)} }
  | grant r p, π => { π with carries := {x | x ∈ π.carries ∨ x = (r, p)} }
  | withdraw r p, π => { π with carries := {x | x ∈ π.carries ∧ x ≠ (r, p)} }

/-- An assignment gives its subject what the role carries, wherever it is in scope. -/
theorem grants_assign : ((assign s r o).apply π).Grants s' p o' ↔
    π.Grants s' p o' ∨ (s' = s ∧ Covers o o' ∧ (r, p) ∈ π.carries) := by
  simp only [Policy.Grants, apply, Set.mem_ofPred_eq, Prod.mk.injEq]
  constructor
  · intro h
    obtain ⟨x, held, hholds, hcovers, hcarries⟩ := h
    cases hholds with
    | inl hholds => exact .inl ⟨x, held, hholds, hcovers, hcarries⟩
    | inr heq =>
        obtain ⟨rfl, rfl, rfl⟩ := heq
        exact .inr ⟨rfl, hcovers, hcarries⟩
  · intro h
    cases h with
    | inl h =>
        obtain ⟨x, held, hholds, hcovers, hcarries⟩ := h
        exact ⟨x, held, .inl hholds, hcovers, hcarries⟩
    | inr h => exact ⟨r, o, .inr ⟨h.1, rfl, rfl⟩, h.2⟩

/-- A grant reaches everyone who holds the role, wherever they hold it. -/
theorem grants_grant : ((grant r p).apply π).Grants s' p' o' ↔
    π.Grants s' p' o' ∨ (p' = p ∧ ∃ held, (s', r, held) ∈ π.holds ∧ Covers held o') := by
  simp only [Policy.Grants, apply, Set.mem_ofPred_eq, Prod.mk.injEq]
  constructor
  · intro h
    obtain ⟨x, held, hholds, hcovers, hcarries⟩ := h
    cases hcarries with
    | inl hcarries => exact .inl ⟨x, held, hholds, hcovers, hcarries⟩
    | inr heq =>
        obtain ⟨rfl, rfl⟩ := heq
        exact .inr ⟨rfl, held, hholds, hcovers⟩
  · intro h
    cases h with
    | inl h =>
        obtain ⟨x, held, hholds, hcovers, hcarries⟩ := h
        exact ⟨x, held, hholds, hcovers, .inl hcarries⟩
    | inr h =>
        obtain ⟨heq, held, hholds, hcovers⟩ := h
        exact ⟨r, held, hholds, hcovers, .inr ⟨rfl, heq⟩⟩

/-- What is withdrawn from a role stays granted through the others only. -/
theorem grants_withdraw : ((withdraw r p).apply π).Grants s' p' o' ↔
    ∃ x held, (s', x, held) ∈ π.holds ∧ Covers held o' ∧ (x, p') ∈ π.carries ∧
      ¬ (x = r ∧ p' = p) := by
  simp only [Policy.Grants, apply, Set.mem_ofPred_eq, ne_eq, Prod.mk.injEq]

/-- The command may take the permission from the subject there. -/
def Takes (s : S) (p : P) (o : Option O) : Command S R P O → Prop
  | suspend s' => s' = s
  | revoke s' _ held => s' = s ∧ Covers held o
  | withdraw _ p' => p' = p
  | _ => False

/-- The command may give the permission to the subject there. -/
def Gives (s : S) (p : P) (o : Option O) : Command S R P O → Prop
  | enroll s' => s' = s
  | assign s' _ held => s' = s ∧ Covers held o
  | grant _ p' => p' = p
  | _ => False

theorem takes_of_lost (h : π.Allows s p o) (h' : ¬ (c.apply π).Allows s p o) : c.Takes s p o := by
  obtain ⟨hactive, r, held, hholds, hcovers, hcarries⟩ := h
  cases c with
  | enroll s' => exact absurd ⟨.inl hactive, r, held, hholds, hcovers, hcarries⟩ h'
  | define r' home => exact absurd ⟨hactive, r, held, hholds, hcovers, hcarries⟩ h'
  | assign s' r' o' => exact absurd ⟨hactive, r, held, .inl hholds, hcovers, hcarries⟩ h'
  | grant r' p' => exact absurd ⟨hactive, r, held, hholds, hcovers, .inl hcarries⟩ h'
  | suspend s' =>
      by_contra hother
      exact h' ⟨⟨hactive, Ne.symm hother⟩, r, held, hholds, hcovers, hcarries⟩
  | revoke s' r' o' =>
      by_contra hother
      refine h' ⟨hactive, r, held, ⟨hholds, fun heq => hother ?_⟩, hcovers, hcarries⟩
      obtain ⟨rfl, rfl, rfl⟩ := by simpa using heq
      exact ⟨rfl, hcovers⟩
  | withdraw r' p' =>
      by_contra hother
      refine h' ⟨hactive, r, held, hholds, hcovers, hcarries, fun heq => hother ?_⟩
      exact (Prod.mk.inj heq).2.symm

theorem gives_of_gained (h : ¬ π.Allows s p o) (h' : (c.apply π).Allows s p o) : c.Gives s p o := by
  obtain ⟨hactive, r, held, hholds, hcovers, hcarries⟩ := h'
  cases c with
  | suspend s' => exact absurd ⟨hactive.1, r, held, hholds, hcovers, hcarries⟩ h
  | define r' home => exact absurd ⟨hactive, r, held, hholds, hcovers, hcarries⟩ h
  | revoke s' r' o' => exact absurd ⟨hactive, r, held, hholds.1, hcovers, hcarries⟩ h
  | withdraw r' p' => exact absurd ⟨hactive, r, held, hholds, hcovers, hcarries.1⟩ h
  | enroll s' =>
      cases hactive with
      | inl hactive => exact absurd ⟨hactive, r, held, hholds, hcovers, hcarries⟩ h
      | inr heq => exact heq.symm
  | assign s' r' o' =>
      cases hholds with
      | inl hholds => exact absurd ⟨hactive, r, held, hholds, hcovers, hcarries⟩ h
      | inr heq =>
          obtain ⟨rfl, rfl, rfl⟩ := by simpa using heq
          exact ⟨rfl, hcovers⟩
  | grant r' p' =>
      cases hcarries with
      | inl hcarries => exact absurd ⟨hactive, r, held, hholds, hcovers, hcarries⟩ h
      | inr heq => exact (Prod.mk.inj heq).2.symm

end Command

/-- Commands that are carried out one after the other, each of them enabled. -/
inductive Run : Policy S R P O → List (Command S R P O) → Policy S R P O → Prop
  | nil (π : Policy S R P O) : Run π [] π
  | cons {π π' : Policy S R P O} {c : Command S R P O} {cs : List (Command S R P O)}
      (h : c.Enabled π) (hrest : Run (c.apply π) cs π') : Run π (c :: cs) π'

namespace Run
variable {π π₁ π₂ π' : Policy S R P O} {c : Command S R P O} {cs cs' : List (Command S R P O)}
  {s : S} {p : P} {o : Option O}

theorem single (h : c.Enabled π) : Run π [c] (c.apply π) := .cons h (.nil _)

theorem append (h : Run π cs π₁) (h' : Run π₁ cs' π') : Run π (cs ++ cs') π' := by
  induction h with
  | nil π => exact h'
  | cons henabled _ ih => exact .cons henabled (ih h')

/-- What is lost in a run, one of its commands has taken. -/
theorem lost (h : Run π cs π') (ha : π.Allows s p o) (ha' : ¬ π'.Allows s p o) :
    ∃ c ∈ cs, c.Takes s p o := by
  induction h with
  | nil π => exact absurd ha ha'
  | @cons π π' c cs _ _ ih =>
      by_cases hstep : (c.apply π).Allows s p o
      · obtain ⟨c', hc', htakes⟩ := ih hstep ha'
        exact ⟨c', List.mem_cons_of_mem _ hc', htakes⟩
      · exact ⟨c, List.mem_cons_self, Command.takes_of_lost ha hstep⟩

/-- What is gained in a run, one of its commands has given. -/
theorem gained (h : Run π cs π') (ha : ¬ π.Allows s p o) (ha' : π'.Allows s p o) :
    ∃ c ∈ cs, c.Gives s p o := by
  induction h with
  | nil π => exact absurd ha' ha
  | @cons π π' c cs _ _ ih =>
      by_cases hstep : (c.apply π).Allows s p o
      · exact ⟨c, List.mem_cons_self, Command.gives_of_gained ha hstep⟩
      · obtain ⟨c', hc', hgives⟩ := ih hstep ha'
        exact ⟨c', List.mem_cons_of_mem _ hc', hgives⟩

end Run

end SecureIam.Lib.Rbac
