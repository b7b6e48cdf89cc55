/-
Crashes. A program over atomic operations may be cut after any of them, and what survives is what
`reboot` keeps of the state. `Triple P p Q C` says of a program started in `P` that it ends in `Q`
and that every state it can be cut in meets the crash condition `C`; it composes over sequences and
loops. A recovery program that is itself cut is started again: if its crash condition is one it can
start from, however often it is cut, it ends in its postcondition (`Recovers.rule`).
-/
import Xv6.Base.Prog

namespace Base

variable {O : Type} {R : O → Type} {σ α β ι : Type} {C : σ → Prop} {Q : α → σ → Prop} {p : Prog O R α}

namespace Prog

/-- The answer of a program and the state after it, for the effect `exec` of each operation. -/
def run (exec : (o : O) → σ → R o × σ) : Prog O R α → σ → α × σ
  | .ret a, s => (a, s)
  | .op o k, s => (k (exec o s).1).run exec (exec o s).2

/-- The states a program can be cut in: before and after each of its operations. -/
inductive Cut (exec : (o : O) → σ → R o × σ) : Prog O R α → σ → σ → Prop
  | here (p : Prog O R α) (s : σ) : Cut exec p s s
  | op {o : O} {k : R o → Prog O R α} {s t : σ} (h : Cut exec (k (exec o s).1) (exec o s).2 t) : Cut exec (.op o k) s t

variable {exec : (o : O) → σ → R o × σ}

theorem run_bind (f : α → Prog O R β) :
    ∀ (p : Prog O R α) (s : σ), (p >>= f).run exec s = (f (p.run exec s).1).run exec (p.run exec s).2
  | .ret _, _ => rfl
  | .op o k, s => run_bind f (k (exec o s).1) (exec o s).2

/-- A sequence is cut in its first part, or in its second part from where the first ends. -/
theorem cut_bind (f : α → Prog O R β) :
    ∀ (p : Prog O R α) {s t : σ}, (p >>= f).Cut exec s t →
      p.Cut exec s t ∨ (f (p.run exec s).1).Cut exec (p.run exec s).2 t
  | .ret _, _, _, h => .inr h
  | .op o k, s, t, h => by
    cases h with
    | here => exact .inl (.here ..)
    | op h => exact (cut_bind f (k (exec o s).1) h).imp_left .op

end Prog

/-! ## Triples with a crash condition -/

/-- From `P` the program ends in `Q`, and wherever it is cut `C` holds. -/
def Triple (exec : (o : O) → σ → R o × σ) (P : σ → Prop) (p : Prog O R α) (Q : α → σ → Prop) (C : σ → Prop) : Prop :=
  ∀ s, P s → Q (p.run exec s).1 (p.run exec s).2 ∧ ∀ t, p.Cut exec s t → C t

namespace Triple

variable {exec : (o : O) → σ → R o × σ} {P P' C' : σ → Prop} {Q' : α → σ → Prop}

theorem ret {a : α} (h : ∀ s, P s → Q a s ∧ C s) : Triple exec P (.ret a : Prog O R α) Q C := by
  intro s hs
  refine ⟨(h s hs).1, fun t ht => ?_⟩
  cases ht
  exact (h s hs).2

theorem call {o : O} {Q : R o → σ → Prop} (h : ∀ s, P s → C s ∧ C (exec o s).2 ∧ Q (exec o s).1 (exec o s).2) :
    Triple exec P (Prog.call o) Q C := by
  intro s hs
  obtain ⟨hc, hc', hq⟩ := h s hs
  refine ⟨hq, fun t ht => ?_⟩
  cases ht with
  | here => exact hc
  | op ht => cases ht; exact hc'

theorem bind {M : α → σ → Prop} {Q : β → σ → Prop} {f : α → Prog O R β} (hp : Triple exec P p M C)
    (hf : ∀ a, Triple exec (M a) (f a) Q C) : Triple exec P (p >>= f) Q C := by
  intro s hs
  obtain ⟨hm, hc⟩ := hp s hs
  obtain ⟨hq, hc'⟩ := hf _ _ hm
  rw [Prog.run_bind]
  exact ⟨hq, fun t ht => (Prog.cut_bind f p ht).elim (hc t) (hc' t)⟩

theorem weaken (h : Triple exec P p Q C) (hP : ∀ s, P' s → P s) (hQ : ∀ a s, Q a s → Q' a s) (hC : ∀ s, C s → C' s) :
    Triple exec P' p Q' C' := by
  intro s hs
  obtain ⟨hq, hc⟩ := h s (hP s hs)
  exact ⟨hQ _ _ hq, fun t ht => hC t (hc t ht)⟩

theorem forM_from (I : List ι → σ → Prop) {f : ι → Prog O R PUnit} (hC : ∀ done s, I done s → C s) :
    ∀ (rest done : List ι),
      (∀ pre x post, done ++ rest = pre ++ x :: post → Triple exec (I pre) (f x) (fun _ => I (pre ++ [x])) C) →
      Triple exec (I done) (rest.forM f) (fun _ => I (done ++ rest)) C
  | [], done, _ => by
    rw [List.append_nil]; exact ret fun s hs => ⟨hs, hC done s hs⟩
  | x :: rest, done, hf => by
    have hrest := forM_from I hC rest (done ++ [x]) fun pre y post h => hf pre y post (by rw [← h]; simp)
    rw [List.append_assoc, List.singleton_append] at hrest
    exact bind (hf done x rest rfl) fun _ => hrest

/-- A loop, with an invariant over the part of the list that is done. -/
theorem forM (I : List ι → σ → Prop) {f : ι → Prog O R PUnit} {l : List ι} (hC : ∀ done s, I done s → C s)
    (hf : ∀ pre x post, l = pre ++ x :: post → Triple exec (I pre) (f x) (fun _ => I (pre ++ [x])) C) :
    Triple exec (I []) (l.forM f) (fun _ => I l) C :=
  forM_from I hC l [] hf

end Triple

/-! ## Recovery -/

/-- A recovery program is started after each crash, until it is not cut any more. -/
inductive Recovers (exec : (o : O) → σ → R o × σ) (reboot : σ → σ) (recover : Prog O R α) : σ → α → σ → Prop
  | done (s : σ) : Recovers exec reboot recover s (recover.run exec (reboot s)).1 (recover.run exec (reboot s)).2
  | crash {s t u : σ} {a : α} (h : recover.Cut exec (reboot s) t) (h' : Recovers exec reboot recover t a u) :
      Recovers exec reboot recover s a u

theorem Recovers.rule {exec : (o : O) → σ → R o × σ} {reboot : σ → σ} {recover : Prog O R α} {I : σ → Prop}
    (h : Triple exec I recover Q C) (hb : ∀ s, C s → I (reboot s)) {s u : σ} {a : α}
    (hr : Recovers exec reboot recover s a u) (hs : C s) : Q a u := by
  induction hr with
  | done s => exact (h _ (hb s hs)).1
  | crash hcut _ ih => exact ih ((h _ (hb _ hs)).2 _ hcut)

end Base
