import Mathlib.Logic.Basic

/-!
Programs as trees of atomic statements.

A program either returns, raises, or issues one statement of a signature and
continues with its result. Nothing is said here about what a statement does: the
same tree is run alone, interleaved with others, or cut off at any statement.
-/
namespace SecureIam.Lib

/-- The statements a program may issue and the type of each one's result. -/
structure Signature where
  Op : Type
  Res : Op → Type

inductive Program (S : Signature) (ε α : Type) where
  | ret (a : α)
  | raise (e : ε)
  | op (o : S.Op) (k : S.Res o → Program S ε α)

namespace Program
variable {S : Signature} {ε ε' α β γ : Type}

def bind : Program S ε α → (α → Program S ε β) → Program S ε β
  | .ret a, f => f a
  | .raise e, _ => .raise e
  | .op o k, f => .op o fun r => (k r).bind f

instance : Monad (Program S ε) where
  pure := .ret
  bind := bind

/-- One statement, and its result. -/
def issue (o : S.Op) : Program S ε (S.Res o) := .op o .ret

/-- Run to the end and hand over the outcome instead of raising. -/
def attempt : Program S ε α → Program S ε' (Except ε α)
  | .ret a => .ret (.ok a)
  | .raise e => .ret (.error e)
  | .op o k => .op o fun r => (k r).attempt

def ofExcept : Except ε α → Program S ε α
  | .ok a => .ret a
  | .error e => .raise e

/-- `except` clauses: the handler sees only what `p` raises. -/
def handle (p : Program S ε α) (h : ε → Program S ε α) : Program S ε α :=
  p.attempt.bind fun
    | .ok a => .ret a
    | .error e => h e

/-- `finally`: run `q` after `p`, whichever way `p` ends. -/
def ensure (p : Program S ε α) (q : Program S ε Unit) : Program S ε α :=
  p.attempt.bind fun out => q.bind fun _ => ofExcept out

@[simp] theorem pure_def (a : α) : (pure a : Program S ε α) = .ret a := rfl
@[simp] theorem bind_def (p : Program S ε α) (f : α → Program S ε β) : p >>= f = p.bind f := rfl
@[simp] theorem map_def (f : α → β) (p : Program S ε α) : f <$> p = p.bind fun a =>
    .ret (f a) := rfl
@[simp] theorem ret_bind (a : α) (f : α → Program S ε β) : (ret a).bind f = f a := rfl
@[simp] theorem ofExcept_ok (a : α) : (ofExcept (.ok a) : Program S ε α) = ret a := rfl
@[simp] theorem ofExcept_error (e : ε) : (ofExcept (.error e) : Program S ε α) = raise e := rfl
@[simp] theorem raise_bind (e : ε) (f : α → Program S ε β) : (raise e).bind f = raise e := rfl
@[simp] theorem op_bind (o : S.Op) (k : S.Res o → Program S ε α) (f : α → Program S ε β) :
    (op o k).bind f = op o fun r => (k r).bind f := rfl
@[simp] theorem ret_attempt (a : α) :
    (ret a : Program S ε α).attempt = (ret (.ok a) : Program S ε' _) := rfl
@[simp] theorem raise_attempt (e : ε) :
    (raise e : Program S ε α).attempt = (ret (.error e) : Program S ε' _) := rfl
@[simp] theorem op_attempt (o : S.Op) (k : S.Res o → Program S ε α) :
    (op o k).attempt = (op o fun r => (k r).attempt : Program S ε' _) := rfl

theorem bind_assoc (p : Program S ε α) (f : α → Program S ε β) (g : β → Program S ε γ) :
    (p.bind f).bind g = p.bind fun a => (f a).bind g := by
  induction p with
  | ret a => rfl
  | raise e => rfl
  | op o k ih => exact congrArg (op o) (funext ih)

/-- Every statement the program can ever issue satisfies `P`. -/
def All (P : S.Op → Prop) : Program S ε α → Prop
  | .ret _ | .raise _ => True
  | .op o k => P o ∧ ∀ r, (k r).All P

theorem All.mono {P Q : S.Op → Prop} (h : ∀ o, P o → Q o) :
    ∀ {p : Program S ε α}, p.All P → p.All Q
  | .ret _, _ | .raise _, _ => trivial
  | .op o _, hp => ⟨h o hp.1, fun r => All.mono h (hp.2 r)⟩

theorem all_trivial (p : Program S ε α) : p.All fun _ => True := by
  induction p with
  | ret a | raise e => trivial
  | op o k ih => exact ⟨trivial, ih⟩

theorem all_issue {P : S.Op → Prop} {o : S.Op} (h : P o) :
    (issue o : Program S ε _).All P :=
  ⟨h, fun _ => trivial⟩

theorem All.bind {P : S.Op → Prop} {p : Program S ε α} {f : α → Program S ε β}
    (hp : p.All P) (hf : ∀ a, (f a).All P) : (p.bind f).All P := by
  induction p with
  | ret a => exact hf a
  | raise e => trivial
  | op o k ih => exact ⟨hp.1, fun r => ih r (hp.2 r)⟩

theorem All.attempt {P : S.Op → Prop} {p : Program S ε α} (hp : p.All P) :
    (p.attempt : Program S ε' _).All P := by
  induction p with
  | ret a => trivial
  | raise e => trivial
  | op o k ih => exact ⟨hp.1, fun r => ih r (hp.2 r)⟩

theorem All.handle {P : S.Op → Prop} {p : Program S ε α} {h : ε → Program S ε α}
    (hp : p.All P) (hh : ∀ e, (h e).All P) : (p.handle h).All P := by
  refine hp.attempt.bind ?_
  rintro (e | a)
  · exact hh e
  · trivial

theorem All.ensure {P : S.Op → Prop} {p : Program S ε α} {q : Program S ε Unit}
    (hp : p.All P) (hq : q.All P) : (p.ensure q).All P := by
  refine hp.attempt.bind fun out => hq.bind fun _ => ?_
  cases out <;> trivial

/-- Every error the program can ever raise satisfies `P`. -/
def Raises (P : ε → Prop) : Program S ε α → Prop
  | .ret _ => True
  | .raise e => P e
  | .op _ k => ∀ r, (k r).Raises P

theorem raises_issue {P : ε → Prop} (o : S.Op) : (issue o : Program S ε _).Raises P :=
  fun _ => trivial

theorem Raises.bind {P : ε → Prop} {p : Program S ε α} {f : α → Program S ε β}
    (hp : p.Raises P) (hf : ∀ a, (f a).Raises P) : (p.bind f).Raises P := by
  induction p with
  | ret a => exact hf a
  | raise e => exact hp
  | op o k ih => exact fun r => ih r (hp r)

/-- A handler answers for what its program raises. -/
theorem Raises.handle {P P' : ε → Prop} {p : Program S ε α} {h : ε → Program S ε α}
    (hp : p.Raises P') (hh : ∀ e, P' e → (h e).Raises P) : (p.handle h).Raises P := by
  induction p with
  | ret a => trivial
  | raise e => exact hh e hp
  | op o k ih => exact fun r => ih r (hp r)

end Program

end SecureIam.Lib
