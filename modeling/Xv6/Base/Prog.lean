/-
Programs over atomic operations. A `Prog` is a tree of operations, each continued by its answer; a
`Logic` says of every operation what it asks of a context and what the context is after each
answer, and `wp` extends it to programs. Where contexts are ordered by what they know, and every
operation may know more, a program may.
-/
import Mathlib.Order.Monotone.Defs

namespace Base

variable {O : Type} {R : O → Type} {α β C : Type}

/-- A program over the operations `O`, which answer in `R`. -/
inductive Prog (O : Type) (R : O → Type) (α : Type) : Type
  | ret (a : α)
  | op (o : O) (k : R o → Prog O R α)

namespace Prog

def bind : Prog O R α → (α → Prog O R β) → Prog O R β
  | .ret a, f => f a
  | .op o k, f => .op o fun r => (k r).bind f

instance : Monad (Prog O R) where
  pure := .ret
  bind := bind

theorem bind_assoc {γ : Type} (f : α → Prog O R β) (g : β → Prog O R γ) :
    ∀ p : Prog O R α, p >>= f >>= g = p >>= fun a => f a >>= g
  | .ret _ => rfl
  | .op o k => congrArg (Prog.op o) (funext fun r => bind_assoc f g (k r))

/-- One operation. -/
def call (o : O) : Prog O R (R o) := .op o .ret

end Prog

/-- What each operation asks of a context, for a postcondition on its answer and the context after
it. -/
structure Logic (O : Type) (R : O → Type) (C : Type) where
  wp : C → (o : O) → (R o → C → Prop) → Prop
  mono : ∀ {c o} {Q Q' : R o → C → Prop}, (∀ r c', Q r c' → Q' r c') → wp c o Q → wp c o Q'

namespace Logic

variable (L : Logic O R C)

/-- The weakest precondition of a program. -/
def wpProg (Q : α → C → Prop) : Prog O R α → C → Prop
  | .ret a, c => Q a c
  | .op o k, c => L.wp c o fun r c' => wpProg Q (k r) c'

variable {L}

theorem wp_bind {Q : β → C → Prop} {f : α → Prog O R β} :
    ∀ {p : Prog O R α} {c : C}, L.wpProg Q (p >>= f) c ↔ L.wpProg (fun a c' => L.wpProg Q (f a) c') p c
  | .ret _, _ => Iff.rfl
  | .op _ k, _ =>
    ⟨L.mono fun r _ h => (wp_bind (p := k r)).1 h, L.mono fun r _ h => (wp_bind (p := k r)).2 h⟩

theorem wpProg_mono {Q Q' : α → C → Prop} (hQ : ∀ a c, Q a c → Q' a c) :
    ∀ {p : Prog O R α} {c : C}, L.wpProg Q p c → L.wpProg Q' p c
  | .ret a, c, h => hQ a c h
  | .op _ _, _, h => L.mono (fun _ _ h => wpProg_mono hQ h) h

/-- A context that knows more is as good. -/
def Upward [Preorder C] (L : Logic O R C) : Prop :=
  ∀ ⦃o : O⦄ ⦃Q : R o → C → Prop⦄, (∀ r, Monotone (Q r)) → Monotone fun c => L.wp c o Q

theorem monotone_wp [Preorder C] (hL : L.Upward) {Q : α → C → Prop} (hQ : ∀ a, Monotone (Q a)) :
    ∀ p : Prog O R α, Monotone (L.wpProg Q p)
  | .ret a => hQ a
  | .op _ k => hL fun r => monotone_wp hL hQ (k r)

end Logic

end Base
