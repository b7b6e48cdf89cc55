/-
Processors and spin locks. Code is a set of program points with an instruction at each: take a
lock, give one back, or run anything else; every point says which locks are held there, and a
`Code` carries the proof that its instructions respect that. A processor that steps over points
with the same locks keeps `Owned`: a lock's owner is exactly the processor whose point holds it, so
no two points that hold one lock are occupied at once. `Crossed` is the deadlock of two processors
over two locks; it cannot arise while the windows in which it is prepared are kept apart.
-/
import Mathlib.Data.List.Basic

namespace Base.Spin

open Function

variable {C L P : Type} {c : C} {l : L} {A B : C → Prop}

/-! ## Code -/

/-- What a processor does at a point. -/
inductive Instr (L P : Type)
  | acquire (l : L) (next : P)
  | release (l : L) (next : P)
  | run
  deriving DecidableEq, Repr

/-- Program points with their instructions and the locks held at them. -/
structure Code (L P : Type) where
  instr : P → Instr L P
  held : P → List L
  acquire : ∀ {p l q}, instr p = .acquire l q → l ∉ held p ∧ held q = l :: held p
  release : ∀ {p l q}, instr p = .release l q → l ∈ held p ∧ ∀ m, m ∈ held q ↔ m ≠ l ∧ m ∈ held p

/-- The owners of the locks and the point each processor stands at. -/
structure State (C L P : Type) where
  owner : L → Option C
  pc : C → P

variable {code : Code L P} {s s' : State C L P}

namespace State

variable [DecidableEq C]

/-- A processor goes on at another point. -/
def jump (s : State C L P) (c : C) (q : P) : State C L P := { s with pc := update s.pc c q }

@[simp] theorem pc_jump (s : State C L P) (c : C) (q : P) : (s.jump c q).pc c = q := update_self ..

theorem pc_jump_of_ne (s : State C L P) {c d : C} (q : P) (h : d ≠ c) : (s.jump c q).pc d = s.pc d :=
  update_of_ne h ..

variable [DecidableEq L]

/-- A processor takes the lock it stands at, if it is free, or gives it back. -/
def lock (code : Code L P) (s : State C L P) (c : C) : Option (State C L P) :=
  match code.instr (s.pc c) with
  | .acquire l q => if s.owner l = none then some { s.jump c q with owner := update s.owner l (some c) } else none
  | .release l q => some { s.jump c q with owner := update s.owner l none }
  | .run => none

theorem lock_cases (h : s.lock code c = some s') :
    (∃ l q, code.instr (s.pc c) = .acquire l q ∧ s.owner l = none ∧
      s' = { s.jump c q with owner := update s.owner l (some c) }) ∨
    (∃ l q, code.instr (s.pc c) = .release l q ∧ s' = { s.jump c q with owner := update s.owner l none }) := by
  unfold lock at h
  split at h
  · split at h
    · exact .inl ⟨_, _, ‹_›, ‹_›, (Option.some.inj h).symm⟩
    · cases h
  · exact .inr ⟨_, _, ‹_›, (Option.some.inj h).symm⟩
  · cases h

theorem lock_pc (h : s.lock code c = some s') :
    (∃ l, code.instr (s.pc c) = .acquire l (s'.pc c) ∨ code.instr (s.pc c) = .release l (s'.pc c)) ∧
      ∀ d, d ≠ c → s'.pc d = s.pc d := by
  rcases lock_cases h with ⟨l, q, hi, -, rfl⟩ | ⟨l, q, hi, rfl⟩
  · exact ⟨⟨l, .inl (by rw [hi]; simp)⟩, fun d hd => pc_jump_of_ne s q hd⟩
  · exact ⟨⟨l, .inr (by rw [hi]; simp)⟩, fun d hd => pc_jump_of_ne s q hd⟩

end State

/-! ## Ownership -/

/-- A lock is owned by the processor whose point holds it. -/
def Owned (code : Code L P) (s : State C L P) : Prop := ∀ l c, s.owner l = some c ↔ l ∈ code.held (s.pc c)

section

variable {q : P}

theorem Owned.excl (h : Owned code s) {a b : C} (ha : l ∈ code.held (s.pc a)) (hb : l ∈ code.held (s.pc b)) :
    a = b := by
  have ha := (h l a).2 ha
  have hb := (h l b).2 hb
  exact Option.some.inj (ha.symm.trans hb)

variable [DecidableEq C]

theorem Owned.jump (h : Owned code s) (hq : code.held q = code.held (s.pc c)) : Owned code (s.jump c q) := by
  intro l d
  by_cases hd : d = c
  · subst hd; rw [State.pc_jump, hq]; exact h l d
  · rw [State.pc_jump_of_ne s q hd]; exact h l d

variable [DecidableEq L]

theorem Owned.acquire (h : Owned code s) (hi : code.instr (s.pc c) = .acquire l q) (hfree : s.owner l = none) :
    Owned code { s.jump c q with owner := update s.owner l (some c) } := by
  obtain ⟨-, hq⟩ := code.acquire hi
  intro m d
  show update s.owner l (some c) m = some d ↔ m ∈ code.held ((s.jump c q).pc d)
  by_cases hm : m = l
  · subst hm
    rw [update_self]
    by_cases hd : d = c
    · subst hd; simp [hq]
    · rw [State.pc_jump_of_ne s q hd, ← h m d, hfree]; simp [Ne.symm hd]
  · rw [update_of_ne hm, h m d]
    by_cases hd : d = c
    · subst hd; simp [hq, hm]
    · rw [State.pc_jump_of_ne s q hd]

theorem Owned.release (h : Owned code s) (hi : code.instr (s.pc c) = .release l q) :
    Owned code { s.jump c q with owner := update s.owner l none } := by
  obtain ⟨hl, hq⟩ := code.release hi
  intro m d
  show update s.owner l none m = some d ↔ m ∈ code.held ((s.jump c q).pc d)
  by_cases hm : m = l
  · subst hm
    rw [update_self]
    by_cases hd : d = c
    · subst hd; simp [hq]
    · rw [State.pc_jump_of_ne s q hd, ← h m d, (h m c).2 hl]; simp [Ne.symm hd]
  · rw [update_of_ne hm, h m d]
    by_cases hd : d = c
    · subst hd; simp [hq, hm]
    · rw [State.pc_jump_of_ne s q hd]

theorem Owned.lock (h : Owned code s) (hs : s.lock code c = some s') : Owned code s' := by
  rcases State.lock_cases hs with ⟨l, q, hi, hfree, rfl⟩ | ⟨l, q, hi, rfl⟩
  · exact h.acquire hi hfree
  · exact h.release hi

end

/-! ## Crossed locks -/

/-- One processor holds `l` and stands at the acquisition of `m`; the holder of `m` stands at that of `l`. -/
def Crossed (code : Code L P) (s : State C L P) (l m : L) : Prop :=
  ∃ a b p q, s.owner l = some a ∧ code.instr (s.pc a) = .acquire m p ∧
    s.owner m = some b ∧ code.instr (s.pc b) = .acquire l q

/-- No processor is in window `A` while another one is in window `B`. -/
def Apart (A B : C → Prop) : Prop := ∀ a b, a ≠ b → A a → ¬ B b

/-- A step of processor `c` keeps two windows apart if the others stay out of the windows they were
out of, and `c` enters one only when no other processor is in the other one. -/
theorem Apart.step {A' B' : C → Prop} (h : Apart A B) {c : C} (hA : ∀ d, d ≠ c → A' d → A d)
    (hB : ∀ d, d ≠ c → B' d → B d) (cA : A' c → A c ∨ ∀ d, d ≠ c → ¬ B d) (cB : B' c → B c ∨ ∀ d, d ≠ c → ¬ A d) :
    Apart A' B' := by
  intro a b hab ha hb
  by_cases hac : a = c
  · subst hac
    have hb := hB b (Ne.symm hab) hb
    rcases cA ha with ha | hn
    · exact h a b hab ha hb
    · exact hn b (Ne.symm hab) hb
  · have ha := hA a hac ha
    by_cases hbc : b = c
    · subst hbc
      rcases cB hb with hb | hn
      · exact h a b hab ha hb
      · exact hn a hab ha
    · exact h a b hab ha (hB b hbc hb)

/-- Windows that hold the acquisition of one lock under the other, kept apart, exclude the deadlock. -/
theorem Apart.not_crossed {m : L} (h : Apart A B) (ho : Owned code s)
    (hA : ∀ a p, l ∈ code.held (s.pc a) → code.instr (s.pc a) = .acquire m p → A a)
    (hB : ∀ b q, m ∈ code.held (s.pc b) → code.instr (s.pc b) = .acquire l q → B b) : ¬ Crossed code s l m := by
  rintro ⟨a, b, p, q, hla, hpa, hmb, hqb⟩
  have hl := (ho l a).1 hla
  have hm := (ho m b).1 hmb
  have hab : a ≠ b := by
    rintro rfl; exact (code.acquire hpa).1 hm
  exact h a b hab (hA a p hl hpa) (hB b q hm hqb)

end Base.Spin
