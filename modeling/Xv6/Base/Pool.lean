/-
Processes that run programs over a shared memory. A process is idle or in a call; in a call it takes
the operations of its program one by one, sleeps at an operation it has to wait for, and returns.
`Rules` is a logic for the calls with an invariant that ties the contexts of all processes to the
memory. Its two obligations are about one process each, the entry into a call and one operation;
`Rules.reach` is what follows for every interleaving: each process keeps the precondition of the
rest of its program in its own context, whatever the others do.
-/
import Xv6.Base.Prog
import Xv6.Base.Run

namespace Base

open Function

variable {T S X K O α C : Type} {R : O → Type}

/-- The operations on a memory `S`, when one has to wait, and the programs of the calls `K`. The
`X` of `exec` is what the operation does not decide itself. -/
structure Kernel (T S X K O : Type) (R : O → Type) (α : Type) where
  exec : T → S → X → (o : O) → Option (R o × S)
  waits : S → O → Bool
  body : K → Prog O R α

/-- A process in a call. -/
structure Thread (K O : Type) (R : O → Type) (α : Type) where
  call : K
  prog : Prog O R α
  asleep : Bool := false

/-- A memory and its processes. -/
structure Pool (T S K O : Type) (R : O → Type) (α : Type) where
  mem : S
  thr : T → Option (Thread K O R α)

inductive PoolAct (T X K : Type)
  | call (t : T) (k : K)
  | step (t : T) (x : X)
  | sleep (t : T)
  | ret (t : T)
  deriving DecidableEq, Repr

variable {p : Pool T S K O R α}

namespace Pool

/-- The call and the next operation of process `t`, and whether it sleeps there. -/
def next (p : Pool T S K O R α) (t : T) : Option (K × O × Bool) :=
  match p.thr t with
  | some ⟨k, .op o _, z⟩ => some (k, o, z)
  | _ => none

/-- Process `t` is in call `k` with `o` as its next operation. -/
def At (p : Pool T S K O R α) (t : T) (k : K) (o : O) : Prop := ∃ z, p.next t = some (k, o, z)

/-- Process `t` sleeps at operation `o` of call `k`. -/
def Asleep (p : Pool T S K O R α) (t : T) (k : K) (o : O) : Prop := p.next t = some (k, o, true)

theorem Asleep.at {t : T} {k : K} {o : O} (h : p.Asleep t k o) : p.At t k o := ⟨true, h⟩

theorem next_eq_some {t : T} {k : K} {o : O} {z : Bool} :
    p.next t = some (k, o, z) ↔ ∃ f, p.thr t = some ⟨k, .op o f, z⟩ := by
  unfold next
  constructor
  · intro h
    split at h
    · cases h; exact ⟨_, ‹_›⟩
    · cases h
  · rintro ⟨f, h⟩; rw [h]

end Pool

variable [DecidableEq T] {p' : Pool T S K O R α}

namespace Kernel

variable (m : Kernel T S X K O R α)

def step (p : Pool T S K O R α) : PoolAct T X K → Option (Pool T S K O R α)
  | .call t k =>
    match p.thr t with
    | none => some { p with thr := update p.thr t (some ⟨k, m.body k, false⟩) }
    | some _ => none
  | .step t x =>
    match p.thr t with
    | some ⟨k, .op o f, _⟩ =>
      (m.exec t p.mem x o).map fun rs => ⟨rs.2, update p.thr t (some ⟨k, f rs.1, false⟩)⟩
    | _ => none
  | .sleep t =>
    match p.thr t with
    | some ⟨k, .op o f, _⟩ =>
      if m.waits p.mem o then some { p with thr := update p.thr t (some ⟨k, .op o f, true⟩) } else none
    | _ => none
  | .ret t =>
    match p.thr t with
    | some ⟨_, .ret _, _⟩ => some { p with thr := update p.thr t none }
    | _ => none

/-- What a step can do. -/
inductive Moves (p : Pool T S K O R α) : PoolAct T X K → Pool T S K O R α → Prop
  | call {t k} (h : p.thr t = none) :
      Moves p (.call t k) { p with thr := update p.thr t (some ⟨k, m.body k, false⟩) }
  | step {t k o f z x r s} (h : p.thr t = some ⟨k, .op o f, z⟩) (he : m.exec t p.mem x o = some (r, s)) :
      Moves p (.step t x) ⟨s, update p.thr t (some ⟨k, f r, false⟩)⟩
  | sleep {t k o f z} (h : p.thr t = some ⟨k, .op o f, z⟩) (hw : m.waits p.mem o = true) :
      Moves p (.sleep t) { p with thr := update p.thr t (some ⟨k, .op o f, true⟩) }
  | ret {t k a z} (h : p.thr t = some ⟨k, .ret a, z⟩) :
      Moves p (.ret t) { p with thr := update p.thr t none }

variable {m} {a : PoolAct T X K}

theorem step_moves (h : m.step p a = some p') : m.Moves p a p' := by
  cases a with
  | call t k =>
    simp only [step] at h
    split at h
    · cases h; exact .call ‹_›
    · cases h
  | step t x =>
    simp only [step] at h
    split at h
    · obtain ⟨⟨r, s⟩, he, rfl⟩ := Option.map_eq_some_iff.1 h; exact .step ‹_› he
    · cases h
  | sleep t =>
    simp only [step] at h
    split at h
    · split at h
      · cases h; exact .sleep ‹_› ‹_›
      · cases h
    · cases h
  | ret t =>
    simp only [step] at h
    split at h
    · cases h; exact .ret ‹_›
    · cases h

theorem mem_step (h : m.step p a = some p') :
    p'.mem = p.mem ∨ ∃ t k o f z x r, a = .step t x ∧ p.thr t = some ⟨k, .op o f, z⟩ ∧
      m.exec t p.mem x o = some (r, p'.mem) := by
  cases step_moves h with
  | call | sleep | ret => exact .inl rfl
  | step ht he => exact .inr ⟨_, _, _, _, _, _, _, rfl, ht, he⟩

theorem asleep_step (h : m.step p a = some p') {u : T} {k : K} {o : O} (hu : p'.Asleep u k o) :
    (p.Asleep u k o ∧ ∀ x, a ≠ .step u x) ∨ (a = .sleep u ∧ p.At u k o ∧ p'.mem = p.mem) := by
  obtain ⟨f, hf⟩ := Pool.next_eq_some.1 hu
  -- a process that did not move is as before
  have hkeep : ∀ {t : T} {th : Option (Thread K O R α)}, u ≠ t → (update p.thr t th) u = some ⟨k, .op o f, true⟩ →
      p.Asleep u k o := fun hut h => by
    rw [update_of_ne hut] at h
    exact Pool.next_eq_some.2 ⟨f, h⟩
  cases step_moves h with
  | @call t k' ht | @ret t k' a z ht =>
    by_cases hut : u = t
    · subst hut; simp at hf
    · exact .inl ⟨hkeep hut hf, fun x hx => by cases hx⟩
  | @step t k' o' f' z x r s ht he =>
    by_cases hut : u = t
    · subst hut; simp at hf
    · exact .inl ⟨hkeep hut hf, fun x hx => by cases hx; exact hut rfl⟩
  | @sleep t k' o' f' z ht hw =>
    by_cases hut : u = t
    · subst hut
      simp only [update_self, Option.some.injEq, Thread.mk.injEq, Prog.op.injEq] at hf
      obtain ⟨rfl, ⟨rfl, -⟩, -⟩ := hf
      exact .inr ⟨rfl, ⟨z, Pool.next_eq_some.2 ⟨f', ht⟩⟩, rfl⟩
    · exact .inl ⟨hkeep hut hf, fun x hx => by cases hx⟩

end Kernel

/-- A logic for each call, and an invariant of the memory and the contexts. -/
structure Rules (m : Kernel T S X K O R α) (C : Type) where
  logic : K → Logic O R C
  inv : S → (T → C) → Prop
  /-- The contexts between calls. -/
  idle : C → Prop
  enter : ∀ {s ctx t} (k : K), inv s ctx → idle (ctx t) →
    ∃ c, inv s (update ctx t c) ∧ (logic k).wpProg (fun _ => idle) (m.body k) c
  exec : ∀ {s ctx t k x o r s'} {Q : R o → C → Prop}, inv s ctx → (logic k).wp (ctx t) o Q →
    m.exec t s x o = some (r, s') → ∃ c, inv s' (update ctx t c) ∧ Q r c

namespace Rules

variable {m : Kernel T S X K O R α} (L : Rules m C)

/-- A process keeps the precondition of the rest of its program. -/
def Keeps : Option (Thread K O R α) → C → Prop
  | none, c => L.idle c
  | some th, c => (L.logic th.call).wpProg (fun _ => L.idle) th.prog c

structure Holds (p : Pool T S K O R α) (ctx : T → C) : Prop where
  inv : L.inv p.mem ctx
  keeps : ∀ t, L.Keeps (p.thr t) (ctx t)

variable {L} {ctx : T → C} {t : T}

theorem Holds.thread {th : Thread K O R α} (h : L.Holds p ctx) (ht : p.thr t = some th) :
    (L.logic th.call).wpProg (fun _ => L.idle) th.prog (ctx t) := by
  have hk := h.keeps t
  rwa [ht] at hk

theorem Holds.at {k : K} {o : O} (h : L.Holds p ctx) (ht : p.At t k o) : ∃ Q, (L.logic k).wp (ctx t) o Q := by
  obtain ⟨z, ht⟩ := ht
  obtain ⟨f, ht⟩ := Pool.next_eq_some.1 ht
  exact ⟨_, h.thread ht⟩

theorem Holds.inv_self (h : L.Holds p ctx) : L.inv p.mem (update ctx t (ctx t)) := by
  rw [update_eq_self]; exact h.inv

theorem Holds.update {s : S} {th : Option (Thread K O R α)} {c : C} (h : L.Holds p ctx)
    (hi : L.inv s (update ctx t c)) (hk : L.Keeps th c) :
    L.Holds ⟨s, update p.thr t th⟩ (update ctx t c) := by
  refine ⟨hi, fun u => ?_⟩
  by_cases hu : u = t
  · subst hu; simpa using hk
  · simpa [hu] using h.keeps u

theorem holds_step {a : PoolAct T X K} (h : L.Holds p ctx) (hs : m.step p a = some p') : ∃ ctx', L.Holds p' ctx' := by
  cases Kernel.step_moves hs with
  | @call t k ht =>
    have hidle := h.keeps t
    rw [ht] at hidle
    obtain ⟨c, hi, hc⟩ := L.enter k h.inv hidle
    exact ⟨_, h.update hi hc⟩
  | step ht he => obtain ⟨c, hi, hc⟩ := L.exec h.inv (h.thread ht) he; exact ⟨_, h.update hi hc⟩
  | @sleep t k o f z ht =>
    have hk := h.thread ht
    exact ⟨_, h.update h.inv_self (show L.Keeps (some ⟨k, .op o f, true⟩) (ctx t) from hk)⟩
  | @ret t k a z ht =>
    have hk := h.thread ht; exact ⟨_, h.update h.inv_self (show L.Keeps none (ctx t) from hk)⟩

/-- What holds initially with some contexts holds in every state reached. -/
theorem reach {init : Pool T S K O R α → Prop} {ok : Pool T S K O R α → PoolAct T X K → Prop}
    (h0 : ∀ p, init p → ∃ ctx, L.Holds p ctx) (hr : Reach init m.step ok p) : ∃ ctx, L.Holds p ctx :=
  hr.inv h0 fun _ _ _ ⟨_, h⟩ _ hs => holds_step h hs

end Rules

end Base
