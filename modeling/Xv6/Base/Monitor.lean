/-
Monitors with one condition queue. The data is guarded by a spin lock; an operation waits in a loop
while it is `blocked`, then runs its body, which changes the data and may broadcast. Waiting is the
kernel's `sleep`: the queue's own lock is taken before the monitor's is given back and held until
the process is asleep, and a broadcast takes it too. A sleeper can wake at any time without being
told, and tests again.

`Settled` is the invariant: a process on its way to sleep, or asleep, is blocked, or a broadcast is
on its way. It holds in every run whose bodies broadcast whenever they unblock an operation, so
that while the monitor's lock is free nobody sleeps who could go on.
-/
import Xv6.Base.Run
import Xv6.Base.Spin

namespace Base

open Spin Function

/-- The operations of a monitor with data `σ`, called by processes `P`. -/
structure Monitor (P Op σ : Type) where
  blocked : Op → σ → Bool
  /-- The data after the body, and whether it broadcasts; `none` is a panic. -/
  body : P → Op → σ → Option (σ × Bool)

namespace Monitor

/-- The monitor's lock, and that of the queue. -/
inductive Lk
  | lk
  | queue
  deriving DecidableEq, Repr

/-- Where a process is. -/
inductive Point (Op : Type)
  | idle
  | enter (op : Op)
  | test (op : Op)
  | body (op : Op)
  | leave
  -- sleep
  | sleepQueue (op : Op)
  | sleepLk (op : Op)
  | sleepState (op : Op)
  | sleepSwitch (op : Op)
  | asleep (op : Op)
  | ready (op : Op)
  | back (op : Op)
  -- broadcast
  | wakeQueue
  | wake
  | wakeDone
  deriving DecidableEq, Repr

variable {P Op σ : Type}

def instr : Point Op → Instr Lk (Point Op)
  | .enter op => .acquire .lk (.test op)
  | .leave => .release .lk .idle
  | .sleepQueue op => .acquire .queue (.sleepLk op)
  | .sleepLk op => .release .lk (.sleepState op)
  | .sleepSwitch op => .release .queue (.asleep op)
  | .ready op => .acquire .queue (.back op)
  | .back op => .release .queue (.enter op)
  | .wakeQueue => .acquire .queue .wake
  | .wakeDone => .release .queue .leave
  | .idle | .test _ | .body _ | .sleepState _ | .asleep _ | .wake => .run

def held : Point Op → List Lk
  | .test _ | .body _ | .leave | .sleepQueue _ | .wakeQueue => [.lk]
  | .sleepLk _ | .wake | .wakeDone => [.queue, .lk]
  | .sleepState _ | .sleepSwitch _ | .back _ => [.queue]
  | .idle | .enter _ | .asleep _ | .ready _ => []

def code : Code Lk (Point Op) where
  instr := instr
  held := held
  acquire {p l q} h := by
    cases p <;> cases h <;> simp [held]
  release {p l q} h := by
    cases p <;> cases h <;> simp [held] <;> intro m <;> cases m <;> simp

/-- The processes and the data. -/
structure State (P Op σ : Type) where
  spin : Spin.State P Lk (Point Op)
  data : σ

/-- Nobody inside, the locks free. -/
def State.start (data : σ) : State P Op σ := ⟨⟨fun _ => none, fun _ => .idle⟩, data⟩

/-- A process calls an operation, takes or gives back a lock, runs up to its next lock, or wakes
without being told. -/
inductive Act (P Op : Type)
  | call (p : P) (op : Op)
  | lock (p : P)
  | run (p : P)
  | stir (p : P)
  deriving DecidableEq, Repr

def Point.woken : Point Op → Point Op
  | .asleep op => .ready op
  | x => x

/-! ## Moves of one process -/

/-- The moves of one process that leave the data alone. -/
inductive Quiet (m : Monitor P Op σ) (p : P) (d : σ) : Act P Op → Point Op → Point Op → Prop
  | call (op : Op) : Quiet m p d (.call p op) .idle (.enter op)
  | enter (op : Op) : Quiet m p d (.lock p) (.enter op) (.test op)
  | wait (op : Op) (h : m.blocked op d = true) : Quiet m p d (.run p) (.test op) (.sleepQueue op)
  | pass (op : Op) (h : m.blocked op d = false) : Quiet m p d (.run p) (.test op) (.body op)
  | leave : Quiet m p d (.lock p) .leave .idle
  | sleepQueue (op : Op) : Quiet m p d (.lock p) (.sleepQueue op) (.sleepLk op)
  | sleepLk (op : Op) : Quiet m p d (.lock p) (.sleepLk op) (.sleepState op)
  | sleepState (op : Op) : Quiet m p d (.run p) (.sleepState op) (.sleepSwitch op)
  | sleepSwitch (op : Op) : Quiet m p d (.lock p) (.sleepSwitch op) (.asleep op)
  | stir (op : Op) : Quiet m p d (.stir p) (.asleep op) (.ready op)
  | ready (op : Op) : Quiet m p d (.lock p) (.ready op) (.back op)
  | back (op : Op) : Quiet m p d (.lock p) (.back op) (.enter op)
  | wakeQueue : Quiet m p d (.lock p) .wakeQueue .wake
  | wakeDone : Quiet m p d (.lock p) .wakeDone .leave

variable {m : Monitor P Op σ} {s s' : State P Op σ} {a : Act P Op}

variable {p : P} {x y : Point Op} {d : σ} {op : Op}

theorem quiet_lock {l : Lk} (d : σ) (h : code.instr x = .acquire l y ∨ code.instr x = .release l y) :
    Quiet m p d (.lock p) x y := by
  rcases h with h | h
  · cases x <;> cases h <;> constructor
  · cases x <;> cases h <;> constructor

theorem held_woken (x : Point Op) : held x.woken = held x := by cases x <;> rfl

/-! ## Waiting and waking -/

/-- The operation a process waits for: on its way to sleep, or asleep. -/
def Point.waitsFor : Point Op → Option Op
  | .sleepQueue op | .sleepLk op | .sleepState op | .sleepSwitch op | .asleep op => some op
  | _ => none

/-- About to broadcast. -/
def Point.waking : Point Op → Bool
  | .wakeQueue | .wake => true
  | _ => false

/-- The operation whose body is still to run. -/
def Point.runs : Point Op → Option Op
  | .enter op | .test op | .body op | .sleepQueue op | .sleepLk op | .sleepState op | .sleepSwitch op | .asleep op |
    .ready op | .back op => some op
  | .idle | .leave | .wakeQueue | .wake | .wakeDone => none

/-- A process past the loop is not blocked; one that waits is, or somebody is about to broadcast. -/
structure Settled (m : Monitor P Op σ) (s : State P Op σ) : Prop where
  passed : ∀ p op, s.spin.pc p = .body op → m.blocked op s.data = false
  waits : ∀ p op, (s.spin.pc p).waitsFor = some op →
    m.blocked op s.data = true ∨ ∃ q, (s.spin.pc q).waking = true

theorem settled_start (d : σ) : Settled m (State.start d) := by
  constructor
  · intro p op h; cases h
  · intro p op h; cases h

theorem lk_of_waking (h : x.waking = true) : Lk.lk ∈ held x := by
  revert h
  cases x <;> simp [Point.waking, held]

theorem Quiet.waking (h : Quiet m p d a x y) (hx : x.waking = true) : y.waking = true := by
  revert hx
  cases h <;> simp [Point.waking]

theorem Quiet.waitsFor (h : Quiet m p d a x y) (hy : y.waitsFor = some op) :
    x.waitsFor = some op ∨ m.blocked op d = true := by
  cases h with
  | wait o hb => cases hy; exact .inr hb
  | sleepQueue | sleepLk | sleepState | sleepSwitch => exact .inl hy
  | _ => cases hy

theorem Quiet.passed (h : Quiet m p d a x (.body op)) : m.blocked op d = false := by
  cases h with
  | pass _ hb => exact hb

theorem Quiet.runs (h : Quiet m p d a x y) (hy : y.runs = some op) : x.runs = some op ∨ a = .call p op := by
  cases h with
  | call o => cases hy; exact .inr rfl
  | leave | wakeQueue | wakeDone => cases hy
  | _ => exact .inl hy

theorem runs_woken (x : Point Op) : x.woken.runs = x.runs := by cases x <;> rfl

/-- A body that unblocks an operation broadcasts. -/
def Broadcasts (m : Monitor P Op σ) (p : P) (op : Op) (d : σ) : Prop :=
  ∀ d', m.body p op d = some (d', false) → ∀ o, m.blocked o d = true → m.blocked o d' = true

theorem owned_start (d : σ) : Owned code (State.start d : State P Op σ).spin := by
  intro l p; simp [State.start, code, held]

theorem Settled.blocked (hs : Settled m s) (ho : Owned code s.spin) (hfree : s.spin.owner .lk = none)
    (hp : (s.spin.pc p).waitsFor = some op) : m.blocked op s.data = true := by
  rcases hs.waits p op hp with hb | ⟨q, hq⟩
  · exact hb
  · rw [(ho .lk q).2 (lk_of_waking hq)] at hfree; cases hfree

/-! ## Steps -/

variable [DecidableEq P]

/-- A process goes on at another point. -/
def State.jump (s : State P Op σ) (p : P) (x : Point Op) : State P Op σ := { s with spin := s.spin.jump p x }

/-- All sleepers are woken by `p`. -/
def State.broadcast (s : State P Op σ) (p : P) : State P Op σ :=
  { s with spin := { s.spin with pc := update (fun q => (s.spin.pc q).woken) p .wakeDone } }

/-- The code between two lock instructions. -/
def run (m : Monitor P Op σ) (s : State P Op σ) (p : P) : Option (State P Op σ) :=
  match s.spin.pc p with
  | .test op => some (s.jump p (if m.blocked op s.data then .sleepQueue op else .body op))
  | .body op =>
    (m.body p op s.data).map fun x => { s.jump p (if x.2 then .wakeQueue else .leave) with data := x.1 }
  | .sleepState op => some (s.jump p (.sleepSwitch op))
  | .wake => some (s.broadcast p)
  | _ => none

def step (m : Monitor P Op σ) (s : State P Op σ) : Act P Op → Option (State P Op σ)
  | .call p op =>
    match s.spin.pc p with
    | .idle => some (s.jump p (.enter op))
    | _ => none
  | .lock p => (s.spin.lock code p).map fun x => { s with spin := x }
  | .run p => run m s p
  | .stir p =>
    match s.spin.pc p with
    | .asleep op => some (s.jump p (.ready op))
    | _ => none

/-! ## What a step does -/

/-- A step is the body of an operation, a broadcast, or a quiet move. -/
theorem step_cases (h : m.step s a = some s') :
    (∃ p op w, a = .run p ∧ s.spin.pc p = .body op ∧ m.body p op s.data = some (s'.data, w) ∧
      s'.spin = s.spin.jump p (if w then .wakeQueue else .leave)) ∨
    (∃ p, a = .run p ∧ s.spin.pc p = .wake ∧ s' = s.broadcast p) ∨
    (s'.data = s.data ∧ ∃ p, Quiet m p s.data a (s.spin.pc p) (s'.spin.pc p) ∧
      ∀ q, q ≠ p → s'.spin.pc q = s.spin.pc q) := by
  have hjump : ∀ p x, Quiet m p s.data a (s.spin.pc p) x → s' = s.jump p x →
      s'.data = s.data ∧ ∃ p, Quiet m p s.data a (s.spin.pc p) (s'.spin.pc p) ∧
        ∀ q, q ≠ p → s'.spin.pc q = s.spin.pc q := by
    rintro p x hq rfl
    refine ⟨rfl, p, ?_, fun q hne => State.pc_jump_of_ne s.spin x hne⟩
    show Quiet m p s.data a (s.spin.pc p) ((s.spin.jump p x).pc p)
    rwa [State.pc_jump]
  cases a with
  | call p op =>
    simp only [step] at h
    split at h
    · rename_i hpc
      exact .inr (.inr (hjump p _ (by rw [hpc]; constructor) (Option.some.inj h).symm))
    · cases h
  | lock p =>
    obtain ⟨x, hx, rfl⟩ := Option.map_eq_some_iff.1 h
    obtain ⟨⟨l, hl⟩, hne⟩ := State.lock_pc hx
    exact .inr (.inr ⟨rfl, p, quiet_lock s.data hl, hne⟩)
  | run p =>
    simp only [step, run] at h
    split at h
    · rename_i op hpc
      refine .inr (.inr (hjump p _ ?_ (Option.some.inj h).symm))
      rw [hpc]
      split
      · exact .wait op ‹_›
      · exact .pass op (Bool.eq_false_iff.2 ‹_›)
    · rename_i op hpc
      obtain ⟨⟨d, w⟩, hb, rfl⟩ := Option.map_eq_some_iff.1 h
      exact .inl ⟨p, op, w, rfl, hpc, hb, rfl⟩
    · rename_i op hpc
      exact .inr (.inr (hjump p _ (by rw [hpc]; constructor) (Option.some.inj h).symm))
    · exact .inr (.inl ⟨p, rfl, ‹_›, (Option.some.inj h).symm⟩)
    · cases h
  | stir p =>
    simp only [step] at h
    split at h
    · rename_i op hpc
      exact .inr (.inr (hjump p _ (by rw [hpc]; constructor) (Option.some.inj h).symm))
    · cases h

/-! ## Ownership -/

theorem owned_step (ho : Owned code s.spin) (h : m.step s a = some s') : Owned code s'.spin := by
  cases a with
  | call p op =>
    simp only [step] at h
    split at h
    · rename_i hpc
      obtain rfl := Option.some.inj h
      exact ho.jump (by rw [hpc]; rfl)
    · cases h
  | lock p => obtain ⟨x, hx, rfl⟩ := Option.map_eq_some_iff.1 h; exact ho.lock hx
  | run p =>
    simp only [step, run] at h
    split at h
    · rename_i op hpc
      obtain rfl := Option.some.inj h
      refine ho.jump ?_
      rw [hpc]
      split <;> rfl
    · rename_i op hpc
      obtain ⟨⟨d, w⟩, -, rfl⟩ := Option.map_eq_some_iff.1 h
      refine ho.jump ?_
      rw [hpc]
      simp only
      split <;> rfl
    · rename_i op hpc
      obtain rfl := Option.some.inj h
      exact ho.jump (by rw [hpc]; rfl)
    · rename_i hpc
      obtain rfl := Option.some.inj h
      intro l q
      rw [show (s.broadcast p).spin.owner = s.spin.owner from rfl, ho l q]
      show l ∈ held _ ↔ l ∈ held (update (fun q => (s.spin.pc q).woken) p .wakeDone q)
      by_cases hq : q = p
      · subst hq; rw [update_self, hpc]; rfl
      · rw [update_of_ne hq, held_woken]
    · cases h
  | stir p =>
    simp only [step] at h
    split at h
    · rename_i op hpc
      obtain rfl := Option.some.inj h
      exact ho.jump (by rw [hpc]; rfl)
    · cases h

/-! ## No lost wakeup -/

/-- Nobody waits once all sleepers are woken: on the way to sleep a process holds one of the two
locks that the broadcaster holds. -/
theorem waitsFor_broadcast {q : P} (ho : Owned code s.spin) (hp : s.spin.pc p = .wake) :
    ((s.broadcast p).spin.pc q).waitsFor = none := by
  show (update (fun q => (s.spin.pc q).woken) p .wakeDone q).waitsFor = none
  by_cases hq : q = p
  · subst hq; rw [update_self]; rfl
  · rw [update_of_ne hq]
    have hlk : Lk.lk ∉ held (s.spin.pc q) := fun h => hq (ho.excl h (by rw [hp]; simp [code, held]))
    have hqueue : Lk.queue ∉ held (s.spin.pc q) := fun h => hq (ho.excl h (by rw [hp]; simp [code, held]))
    revert hlk hqueue
    cases s.spin.pc q <;> simp [held, Point.woken, Point.waitsFor]

theorem settled_step (ho : Owned code s.spin) (hs : Settled m s) (h : m.step s a = some s')
    (hb : ∀ p op, a = .run p → s.spin.pc p = .body op → m.blocked op s.data = false → Broadcasts m p op s.data) :
    Settled m s' := by
  rcases step_cases h with ⟨p, op, w, rfl, hp, hbody, hspin⟩ | ⟨p, rfl, hp, rfl⟩ | ⟨hd, p, hq, hne⟩
  · -- the body of `p`, who holds the lock: nobody else is past the loop, and nobody broadcasts
    have hpc : ∀ q, q ≠ p → s'.spin.pc q = s.spin.pc q := fun q hq => by
      rw [hspin]; exact State.pc_jump_of_ne s.spin _ hq
    have hself : s'.spin.pc p = if w then .wakeQueue else .leave := by rw [hspin]; exact State.pc_jump ..
    have hlk : Lk.lk ∈ code.held (s.spin.pc p) := by rw [hp]; simp [code, held]
    constructor
    · intro q o hq
      by_cases hqp : q = p
      · subst hqp
        rw [hself] at hq
        split at hq <;> cases hq
      · rw [hpc q hqp] at hq
        exact absurd (ho.excl (l := .lk) (by rw [hq]; simp [code, held]) hlk) hqp
    · intro q o hq
      by_cases hqp : q = p
      · subst hqp
        rw [hself] at hq
        split at hq <;> cases hq
      · rw [hpc q hqp] at hq
        have hbl : m.blocked o s.data = true := by
          rcases hs.waits q o hq with hbl | ⟨r, hr⟩
          · exact hbl
          · obtain rfl : r = p := ho.excl (l := .lk) (lk_of_waking hr) hlk
            rw [hp] at hr
            cases hr
        cases w with
        | true => exact .inr ⟨p, by rw [hself]; rfl⟩
        | false => exact .inl (hb p op rfl hp (hs.passed p op hp) _ hbody o hbl)
  · -- a broadcast
    constructor
    · intro q o hq
      have hq : update (fun q => (s.spin.pc q).woken) p .wakeDone q = .body o := hq
      by_cases hqp : q = p
      · subst hqp; rw [update_self] at hq; cases hq
      · rw [update_of_ne hqp] at hq
        refine hs.passed q o ?_
        revert hq
        cases s.spin.pc q <;> simp [Point.woken]
    · intro q o hq; rw [waitsFor_broadcast ho hp] at hq; cases hq
  · constructor
    · intro q o hq'
      rw [hd]
      by_cases hqp : q = p
      · subst hqp; rw [hq'] at hq; exact hq.passed
      · exact hs.passed q o ((hne q hqp).symm.trans hq')
    · intro q o hq'
      rw [hd]
      have hbl : m.blocked o s.data = true ∨ ∃ r, (s.spin.pc r).waking = true := by
        by_cases hqp : q = p
        · subst hqp
          rcases hq.waitsFor hq' with hw | hw
          · exact hs.waits q o hw
          · exact .inl hw
        · exact hs.waits q o (by rw [← hne q hqp]; exact hq')
      rcases hbl with hbl | ⟨r, hr⟩
      · exact .inl hbl
      · refine .inr ⟨r, ?_⟩
        by_cases hrp : r = p
        · subst hrp; exact hq.waking hr
        · rw [hne r hrp]; exact hr

/-- What a caller has when it calls, and the bodies of the others leave it, it has until its own body
runs. -/
theorem promised_step {R : P → Op → σ → Prop} (hR : ∀ p op, (s.spin.pc p).runs = some op → R p op s.data)
    (h : m.step s a = some s') (hcall : ∀ p op, a = .call p op → R p op s.data)
    (hframe : ∀ p q op o d w, q ≠ p → m.body q o s.data = some (d, w) → R p op s.data → R p op d) :
    ∀ p op, (s'.spin.pc p).runs = some op → R p op s'.data := by
  intro r o hr
  rcases step_cases h with ⟨p, op, w, rfl, hp, hb, hspin⟩ | ⟨p, rfl, hp, rfl⟩ | ⟨hd, p, hq, hne⟩
  · rw [hspin] at hr
    by_cases hrp : r = p
    · subst hrp
      rw [State.pc_jump] at hr
      split at hr <;> cases hr
    · rw [State.pc_jump_of_ne _ _ hrp] at hr
      exact hframe r p o op _ w (Ne.symm hrp) hb (hR r o hr)
  · refine hR r o ?_
    have hr : (update (fun q => (s.spin.pc q).woken) p .wakeDone r).runs = some o := hr
    by_cases hrp : r = p
    · subst hrp; rw [update_self] at hr; cases hr
    · rwa [update_of_ne hrp, runs_woken] at hr
  · rw [hd]
    by_cases hrp : r = p
    · subst hrp
      rcases hq.runs hr with hx | hx
      · exact hR r o hx
      · exact hcall r o hx
    · exact hR r o (by rw [← hne r hrp]; exact hr)

/-- In a run whose bodies keep an invariant of the data and broadcast when they unblock an operation,
every state is settled. -/
theorem reach_settled {init : State P Op σ → Prop} {ok : State P Op σ → Act P Op → Prop} {I : σ → Prop}
    (h0 : ∀ s, init s → ∃ d, s = State.start d ∧ I d)
    (hbody : ∀ s p op, I s.data → ok s (.run p) → s.spin.pc p = .body op → m.blocked op s.data = false →
      Broadcasts m p op s.data ∧ ∀ d w, m.body p op s.data = some (d, w) → I d)
    (hr : Reach init m.step ok s) : Owned code s.spin ∧ Settled m s ∧ I s.data := by
  refine Reach.inv (P := fun s => Owned code s.spin ∧ Settled m s ∧ I s.data) ?_ ?_ hr
  · intro s hs
    obtain ⟨d, rfl, hd⟩ := h0 s hs
    exact ⟨owned_start d, settled_start d, hd⟩
  · rintro s a s' ⟨ho, hs, hi⟩ hok h
    refine ⟨owned_step ho h, settled_step ho hs h ?_, ?_⟩
    · rintro p op rfl hp hb; exact (hbody s p op hi hok hp hb).1
    · rcases step_cases h with ⟨p, op, w, rfl, hp, hb, -⟩ | ⟨p, rfl, -, rfl⟩ | ⟨hd, -⟩
      · exact (hbody s p op hi hok hp (hs.passed p op hp)).2 _ _ hb
      · exact hi
      · rw [hd]; exact hi

end Monitor

end Base
