/-
Computations that may fail, together with the exact condition under which they do not. `Exactly C x Q` says
both what a caller may rely on and when there is nothing to rely on, so a sequence of calls has a condition
for the whole of it.
-/
import Mathlib.Logic.Basic

namespace Base

variable {α β : Type} {C D : Prop} {x : Option α} {Q R : α → Prop} {a : α}

/-- `x` succeeds exactly when `C` holds, and then its value is in `Q`. -/
def Exactly (C : Prop) (x : Option α) (Q : α → Prop) : Prop := (C ∧ ∃ a, x = some a ∧ Q a) ∨ ¬C ∧ x = none

namespace Exactly

theorem ret (hC : C) (hQ : Q a) : Exactly C (some a) Q := .inl ⟨hC, a, rfl, hQ⟩

theorem fail (hC : ¬C) : Exactly C (none : Option α) Q := .inr ⟨hC, rfl⟩

theorem mono (h : Exactly C x Q) (hC : C ↔ D) (hQ : ∀ a, C → Q a → R a) : Exactly D x R := by
  rcases h with ⟨hc, a, hx, hq⟩ | ⟨hc, hx⟩
  · exact .inl ⟨hC.1 hc, a, hx, hQ a hc hq⟩
  · exact .inr ⟨fun hd => hc (hC.2 hd), hx⟩

/-- The condition of the whole implies that of its first part. -/
theorem bind {f : α → Option β} {S : β → Prop} (h : Exactly C x Q) (hC : D → C)
    (hf : ∀ a, C → Q a → Exactly D (f a) S) : Exactly D (x.bind f) S := by
  rcases h with ⟨hc, a, rfl, hq⟩ | ⟨hc, rfl⟩
  · exact hf a hc hq
  · exact .inr ⟨fun hd => hc (hC hd), rfl⟩

theorem of_eq_some (h : Exactly C x Q) (hx : x = some a) : C ∧ Q a := by
  rcases h with ⟨hc, b, hb, hq⟩ | ⟨-, hn⟩
  · obtain rfl := Option.some.inj (hb.symm.trans hx); exact ⟨hc, hq⟩
  · cases hn.symm.trans hx

theorem exists_of (h : Exactly C x Q) (hC : C) : ∃ a, x = some a ∧ Q a :=
  h.elim And.right fun hn => absurd hC hn.1

end Exactly

theorem bind_eq_ok {ε : Type} {x : Except ε α} {f : α → Except ε β} {b : β} (h : x >>= f = .ok b) :
    ∃ a, x = .ok a ∧ f a = .ok b := by
  rcases x with e | a
  · cases h
  · exact ⟨a, rfl, h⟩

end Base
