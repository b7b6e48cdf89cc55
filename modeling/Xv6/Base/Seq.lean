/-
Programs that run one at a time. `Evals step p s a s'` says that program `p`, started in `s`, can end with
the answer `a` in `s'`, when its operations answer by the relation `step`; `seq step` is the logic for it,
with the state itself as the context.
-/
import Xv6.Base.Pool

namespace Base

variable {O : Type} {R : O → Type} {σ α β : Type} {step step' : σ → (o : O) → R o → σ → Prop} {Q : α → σ → Prop}
  {p : Prog O R α} {s : σ}

/-- A program can end with the answer `a` in `s'`. -/
inductive Prog.Evals (step : σ → (o : O) → R o → σ → Prop) : Prog O R α → σ → α → σ → Prop
  | ret (a : α) (s : σ) : Evals step (.ret a) s a s
  | op {o : O} {k : R o → Prog O R α} {s s' s'' : σ} {r : R o} {a : α} (h : step s o r s')
      (h' : Evals step (k r) s' a s'') : Evals step (.op o k) s a s''

/-- The logic of a program that runs alone. -/
def seq (step : σ → (o : O) → R o → σ → Prop) : Logic O R σ where
  wp s o Q := ∀ r s', step s o r s' → Q r s'
  mono hQ h r s' hs := hQ r s' (h r s' hs)

theorem wp_seq :
    ∀ {p : Prog O R α} {s : σ}, (seq step).wpProg Q p s ↔ ∀ a s', p.Evals step s a s' → Q a s'
  | .ret a, s => by
    constructor
    · intro h a' s' he; cases he; exact h
    · intro h; exact h a s (.ret a s)
  | .op o k, s => by
    constructor
    · intro h a s' he
      cases he with
      | op hs he => exact wp_seq.1 (h _ _ hs) a s' he
    · intro h r s' hs; exact wp_seq.2 fun a s'' he => h a s'' (.op hs he)

theorem wp_mono {Q' : α → σ → Prop} (hQ : ∀ a s', Q a s' → Q' a s') (h : (seq step).wpProg Q p s) :
    (seq step).wpProg Q' p s := Logic.wpProg_mono hQ h

/-- What comes after a program, whatever it does. -/
theorem wp_any {Q : β → σ → Prop} {f : α → Prog O R β} (h : ∀ a s', (seq step).wpProg Q (f a) s') :
    (seq step).wpProg Q (p >>= f) s :=
  Logic.wp_bind.2 (wp_seq.2 fun a s' _ => h a s')

/-- The logic of a program that has to meet `must` at each of its operations. -/
def obliged (step : σ → (o : O) → R o → σ → Prop) (must : σ → O → Prop) : Logic O R σ where
  wp s o Q := must s o ∧ ∀ r s', step s o r s' → Q r s'
  mono hQ h := ⟨h.1, fun r s' hs => hQ r s' (h.2 r s' hs)⟩

/-- The logic of a program that comes to its end: every operation has an answer. -/
def total (step : σ → (o : O) → R o → σ → Prop) : Logic O R σ := obliged step fun s o => ∃ r s', step s o r s'

/-- What all runs do is done by those of a program that comes to its end. -/
theorem total_and (hstep : ∀ s o r s', step s o r s' → step' s o r s') {Q Q' : α → σ → Prop} :
    ∀ {p : Prog O R α} {s : σ}, (total step).wpProg Q p s → (seq step').wpProg Q' p s →
      (total step).wpProg (fun a s => Q a s ∧ Q' a s) p s
  | .ret _, _, h, h' => ⟨h, h'⟩
  | .op _ _, s, h, h' => ⟨h.1, fun r s' hs => total_and hstep (h.2 r s' hs) (h' r s' (hstep s _ r s' hs))⟩

theorem total_evals :
    ∀ {p : Prog O R α} {s : σ}, (total step).wpProg Q p s → ∃ a s', p.Evals step s a s' ∧ Q a s'
  | .ret a, s, h => ⟨a, s, .ret a s, h⟩
  | .op _ _, _, h => by
    obtain ⟨⟨r, s1, hs⟩, hall⟩ := h
    obtain ⟨a, s', he, hQ⟩ := total_evals (hall r s1 hs)
    exact ⟨a, s', .op hs he, hQ⟩

theorem Prog.Evals.mono {s' : σ} {a : α} (h : ∀ s o r s', step s o r s' → step' s o r s') (he : p.Evals step s a s') :
    p.Evals step' s a s' := by
  induction he with
  | ret a s => exact .ret a s
  | op hs _ ih => exact .op (h _ _ _ _ hs) ih

/-- The end of a program whose operations answer by a function, unless one has no answer. -/
def Prog.eval (exec : σ → (o : O) → Option (R o × σ)) : Prog O R α → σ → Option (α × σ)
  | .ret a, s => some (a, s)
  | .op o k, s =>
    match exec s o with
    | none => none
    | some (r, s') => (k r).eval exec s'

theorem Prog.evals_of_eval {exec : σ → (o : O) → Option (R o × σ)}
    (hstep : ∀ s o r s', exec s o = some (r, s') → step s o r s') :
    ∀ (p : Prog O R α) {s s' : σ} {a : α}, p.eval exec s = some (a, s') → p.Evals step s a s'
  | .ret a, s, s', a', h => by
    cases h; exact .ret a s
  | .op o k, s, s', a, h => by
    simp only [eval] at h
    split at h
    · cases h
    · rename_i r s1 he; exact .op (hstep s o r s1 he) (evals_of_eval hstep (k r) h)

/-! ## Pools -/

variable {T S X K : Type}

/-- The answers that process `t` can get. -/
def Kernel.answers (m : Kernel T S X K O R α) (t : T) (s : S) (o : O) (r : R o) (s' : S) : Prop :=
  ∃ x, m.exec t s x o = some (r, s')

end Base
