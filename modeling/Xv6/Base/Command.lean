/-
Commands on a state that may stop with an error, and what they end in. `Ends E Q x` says of the outcome `x` of
a command that an error is in `E`, and that otherwise the value and the state are in `Q`; the rules follow the
way commands are put together, so a function is proved once and its callers use what it ends in.
-/
import Mathlib.Logic.Basic

namespace Base

variable {σ ε α β : Type} {s : σ} {a : α} {e : ε}

/-- A command on states `σ` with errors `ε`. -/
abbrev Cmd (σ ε α : Type) := StateT σ (Except ε) α

/-- The outcome is an error in `E`, or a value and a state in `Q`. -/
def Ends (E : ε → Prop) (Q : α → σ → Prop) : Except ε (α × σ) → Prop
  | .ok r => Q r.1 r.2
  | .error e => E e

variable {m : Cmd σ ε α} {f : α → Cmd σ ε β}

namespace Ends

variable {E E' : ε → Prop} {Q R : α → σ → Prop} {S : β → σ → Prop}

theorem ret (h : Q a s) : Ends E Q ((pure a : Cmd σ ε α) s) := h

theorem fail (h : E e) : Ends E Q ((throw e : Cmd σ ε α) s) := h

theorem bind (h : Ends E R (m s)) (hf : ∀ a s', R a s' → Ends E S (f a s')) :
    Ends E S ((m >>= f) s) := by
  show Ends E S ((m s).bind fun r => f r.1 r.2)
  cases hm : m s with
  | error e => rw [hm] at h; exact h
  | ok r => rw [hm] at h; exact hf r.1 r.2 h

variable {x : Except ε (α × σ)}

theorem mono (h : Ends E R x) (hE : ∀ e, E e → E' e) (hQ : ∀ a s, R a s → Q a s) : Ends E' Q x := by
  cases x with
  | error e => exact hE e h
  | ok r => exact hQ r.1 r.2 h

theorem post (h : Ends E R x) (hQ : ∀ a s, R a s → Q a s) : Ends E Q x := h.mono (fun _ h => h) hQ

theorem err (h : Ends E Q x) (hE : ∀ e, E e → E' e) : Ends E' Q x := h.mono hE fun _ _ h => h

theorem and (h : Ends E Q x) (h' : Ends E' R x) : Ends (fun e => E e ∧ E' e) (fun a s => Q a s ∧ R a s) x := by
  cases x with
  | error e => exact ⟨h, h'⟩
  | ok r => exact ⟨h, h'⟩

theorem of_true : Ends (fun _ => True) (fun _ _ => True) x := by
  cases x with
  | error e => trivial
  | ok r => trivial

theorem exists_ok (h : Ends (fun _ => False) Q x) : ∃ a s, x = .ok (a, s) ∧ Q a s := by
  cases x with
  | error e => exact h.elim
  | ok r => exact ⟨r.1, r.2, rfl, h⟩

theorem map {τ : Type} {S : β → τ → Prop} {g : α × σ → β × τ} (h : Ends E R x)
    (hg : ∀ a s, R a s → S (g (a, s)).1 (g (a, s)).2) : Ends E S (x.map g) := by
  cases x with
  | error e => exact h
  | ok r => exact hg r.1 r.2 h

theorem ite {c : Prop} [Decidable c] {x y : Cmd σ ε α} (ht : c → Ends E Q (x s)) (hf : ¬c → Ends E Q (y s)) :
    Ends E Q ((if c then x else y) s) := by
  by_cases hc : c
  · rw [if_pos hc]; exact ht hc
  · rw [if_neg hc]; exact hf hc

end Ends

theorem bind_error (h : m s = .error e) : (m >>= f) s = .error e := by
  show ((m s).bind fun r => f r.1 r.2) = .error e; rw [h]; rfl

theorem bind_ok {s' : σ} (h : m s = .ok (a, s')) : (m >>= f) s = f a s' := by
  show ((m s).bind fun r => f r.1 r.2) = f a s'; rw [h]; rfl

/-- Reads of the state, and writes, in front of the rest of a command. -/
theorem get_bind (f : σ → Cmd σ ε β) (s : σ) : ((get : Cmd σ ε σ) >>= f) s = f s s := rfl

theorem modify_bind (g : σ → σ) (f : PUnit → Cmd σ ε β) (s : σ) :
    ((modify g : Cmd σ ε PUnit) >>= f) s = f ⟨⟩ (g s) := rfl

end Base
