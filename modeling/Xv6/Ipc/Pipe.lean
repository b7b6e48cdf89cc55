/-
Pipes, `pipe.c`. Any number of processes call `pipewrite`, `piperead` and `pipeclose` on one pipe.
Between two accesses to anything another process can change a process is at a point of its code, and
a step takes it to the next one. `p->lock` is part of the state; `sleep`, `wakeup` and `kill` are one
step each, for they run under `ptable.lock`, which `sleep` takes before it gives back `p->lock` and
holds until the process has state `SLEEPING`. A process can be killed between any two steps.

The state also has a history: the bytes stored and taken, and what the calls returned. The page of a
pipe with no open end is not modelled here; no descriptor leads to it any more.
-/
import Xv6.Base.Run
import Xv6.Base.Ring

namespace Xv6.Ipc

open Base Ring Function

def PIPESIZE : Nat := 512

instance : NeZero PIPESIZE := ⟨by decide⟩

/-- `struct pipe`, without its lock. -/
structure Pipe where
  data : Fin PIPESIZE → UInt8
  nread : UInt32 := 0
  nwrite : UInt32 := 0
  readopen : Bool := true
  writeopen : Bool := true

namespace Pipe

/-- `p->nwrite == p->nread + PIPESIZE`. -/
abbrev Full (pi : Pipe) : Prop := pi.nwrite = pi.nread + UInt32.ofNat PIPESIZE

/-- `p->nread == p->nwrite`. -/
abbrev Empty (pi : Pipe) : Prop := pi.nread = pi.nwrite

/-- `p->data[p->nwrite++ % PIPESIZE] = b`. -/
def put (pi : Pipe) (b : UInt8) : Pipe :=
  { pi with data := update pi.data (place PIPESIZE pi.nwrite.toNat) b, nwrite := pi.nwrite + 1 }

/-- `p->data[p->nread % PIPESIZE]`. -/
def first (pi : Pipe) : UInt8 := pi.data (place PIPESIZE pi.nread.toNat)

/-- `p->nread++`. -/
def advance (pi : Pipe) : Pipe := { pi with nread := pi.nread + 1 }

/-- `p->writeopen = 0` or `p->readopen = 0`. -/
def shut (pi : Pipe) (writable : Bool) : Pipe :=
  if writable then { pi with writeopen := false } else { pi with readopen := false }

end Pipe

/-! ## Processes -/

/-- `&p->nread` and `&p->nwrite`. -/
inductive Chan
  | nread
  | nwrite
  deriving DecidableEq, Repr

/-- A call `pipewrite(p, addr, n)` and its loop counter. `fresh` remembers whether it has stored
nothing since it last took the lock. -/
structure Write where
  addr : Nat → UInt8
  n : Int
  i : Nat := 0
  fresh : Bool := true

/-- The bytes a call is to write. -/
def Write.data (w : Write) : List UInt8 := (List.range w.n.toNat).map w.addr

/-- A call `piperead(p, addr, n)` and what it has copied. -/
structure Read where
  n : Int
  got : List UInt8 := []

/-- Where a process is. -/
inductive Pc
  | out
  -- pipewrite
  | wEnter (w : Write)
  | wLoop (w : Write)
  | wTest (w : Write)
  | wFull (w : Write)
  | wWake (w : Write)
  | wSleep (w : Write)
  | wAsleep (w : Write)
  | wBack (w : Write)
  | wDone (w : Write)
  | wLeave (w : Write)
  -- piperead
  | rEnter (r : Read)
  | rTest (r : Read)
  | rKilled (r : Read)
  | rSleep (r : Read)
  | rAsleep (r : Read)
  | rLoop (r : Read)
  | rDone (r : Read)
  | rLeave (r : Read)
  -- pipeclose
  | cEnter (writable : Bool)
  | cShut (writable : Bool)
  | cLeave

/-- Is the process between `acquire` and `release`? -/
def Pc.holds : Pc → Bool
  | .wLoop _ | .wTest _ | .wFull _ | .wWake _ | .wSleep _ | .wDone _ | .wLeave _ => true
  | .rTest _ | .rKilled _ | .rSleep _ | .rLoop _ | .rDone _ | .rLeave _ => true
  | .cShut _ | .cLeave => true
  | .out | .wEnter _ | .wAsleep _ | .wBack _ | .rEnter _ | .rAsleep _ | .cEnter _ => false

/-- `wakeup`: who sleeps on the channel goes on, to take the lock again. -/
def Pc.wake (c : Chan) : Pc → Pc
  | .wAsleep w => if c = .nwrite then .wBack w else .wAsleep w
  | .rAsleep r => if c = .nread then .rEnter r else .rAsleep r
  | x => x

/-- `kill` wakes on any channel. -/
def Pc.stir (x : Pc) : Pc := (x.wake .nread).wake .nwrite

/-- What a step tells the history. -/
inductive Out
  | store (b : UInt8)
  | take (b : UInt8)
  | wrote (w : Write) (r : Int)
  | read (bytes : List UInt8)

inductive LockOp
  | keep
  | acquire
  | release
  deriving DecidableEq, Repr

/-- What a step does. -/
structure Effect where
  pc : Pc
  pipe : Pipe
  lock : LockOp := .keep
  wake : Option Chan := none
  out : Option Out := none

/-- The next step of a process. -/
def next (pi : Pipe) (killed : Bool) : Pc → Option Effect
  | .out | .wAsleep _ | .rAsleep _ => none
  | .wEnter w => some { pc := .wLoop { w with fresh := true }, pipe := pi, lock := .acquire }
  | .wLoop w => some { pc := if (w.i : Int) < w.n then .wTest w else .wDone w, pipe := pi }
  | .wTest w =>
    if pi.Full then some { pc := .wFull w, pipe := pi }
    else some
      { pc := .wLoop { w with i := w.i + 1, fresh := false }, pipe := pi.put (w.addr w.i),
        out := some (.store (w.addr w.i)) }
  | .wFull w =>
    if pi.readopen = false ∨ killed = true then
      some { pc := .out, pipe := pi, lock := .release, out := some (.wrote w (-1)) }
    else some { pc := .wWake w, pipe := pi }
  | .wWake w => some { pc := .wSleep w, pipe := pi, wake := some .nread }
  | .wSleep w => some { pc := .wAsleep w, pipe := pi, lock := .release }
  | .wBack w => some { pc := .wTest { w with fresh := true }, pipe := pi, lock := .acquire }
  | .wDone w => some { pc := .wLeave w, pipe := pi, wake := some .nread }
  | .wLeave w => some { pc := .out, pipe := pi, lock := .release, out := some (.wrote w w.n) }
  | .rEnter r => some { pc := .rTest r, pipe := pi, lock := .acquire }
  | .rTest r => some { pc := if pi.Empty ∧ pi.writeopen = true then .rKilled r else .rLoop r, pipe := pi }
  | .rKilled r =>
    if killed = true then some { pc := .out, pipe := pi, lock := .release }
    else some { pc := .rSleep r, pipe := pi }
  | .rSleep r => some { pc := .rAsleep r, pipe := pi, lock := .release }
  | .rLoop r =>
    if (r.got.length : Int) < r.n ∧ ¬ pi.Empty then
      some { pc := .rLoop { r with got := r.got ++ [pi.first] }, pipe := pi.advance, out := some (.take pi.first) }
    else some { pc := .rDone r, pipe := pi }
  | .rDone r => some { pc := .rLeave r, pipe := pi, wake := some .nwrite }
  | .rLeave r => some { pc := .out, pipe := pi, lock := .release, out := some (.read r.got) }
  | .cEnter writable => some { pc := .cShut writable, pipe := pi, lock := .acquire }
  | .cShut writable =>
    some { pc := .cLeave, pipe := pi.shut writable, wake := some (if writable then .nread else .nwrite) }
  | .cLeave => some { pc := .out, pipe := pi, lock := .release }

/-! ## The system -/

/-- An event of the history, with the process and the number of its call. -/
structure Ev (P : Type) where
  p : P
  call : Nat
  out : Out

structure State (P : Type) where
  pipe : Pipe
  lock : Option P := none
  pc : P → Pc := fun _ => .out
  killed : P → Bool := fun _ => false
  calls : P → Nat := fun _ => 0
  hist : List (Ev P) := []

inductive Call
  | write (addr : Nat → UInt8) (n : Int)
  | read (n : Int)
  | close (writable : Bool)

def Call.enter : Call → Pc
  | .write addr n => .wEnter { addr := addr, n := n }
  | .read n => .rEnter { n := n }
  | .close writable => .cEnter writable

/-- A process enters a call, takes a step of it, or is killed. -/
inductive Act (P : Type)
  | call (p : P) (c : Call)
  | step (p : P)
  | kill (p : P)

variable {P : Type}

section

variable [DecidableEq P]

/-- `p->lock` after process `p` takes or gives it back; taking it, it spins until the lock is free. -/
def LockOp.apply (p : P) (lock : Option P) : LockOp → Option (Option P)
  | .keep => some lock
  | .acquire => if lock = none then some (some p) else none
  | .release => some none

def State.after (s : State P) (p : P) (e : Effect) (lock : Option P) : State P where
  pipe := e.pipe
  lock := lock
  pc := update (fun q => e.wake.elim (s.pc q) fun c => (s.pc q).wake c) p e.pc
  killed := s.killed
  calls := s.calls
  hist := s.hist ++ (e.out.map fun o => ⟨p, s.calls p, o⟩).toList

def step (s : State P) : Act P → Option (State P)
  | .call p c =>
    match s.pc p with
    | .out => some { s with pc := update s.pc p c.enter, calls := update s.calls p (s.calls p + 1) }
    | _ => none
  | .step p =>
    (next s.pipe (s.killed p) (s.pc p)).bind fun e => (e.lock.apply p s.lock).map (s.after p e)
  | .kill p =>
    some { s with killed := update s.killed p true, pc := update s.pc p (s.pc p).stir }

/-- After `pipealloc`, with any process killed or not. -/
def pipealloc (s : State P) : Prop := ∃ data killed, s = { pipe := { data := data }, killed := killed }

end

/-! ## Steps -/

variable {s s' : State P} {e : Effect}

section

variable [DecidableEq P] {p q : P} {lock : Option P}

theorem step_call {c : Call} (h : step s (.call p c) = some s') :
    s.pc p = .out ∧
      s' = { s with pc := update s.pc p c.enter, calls := update s.calls p (s.calls p + 1) } := by
  unfold step at h
  dsimp only at h
  split at h
  · rename_i hp; exact ⟨hp, (Option.some.inj h).symm⟩
  · cases h

theorem step_step (h : step s (.step p) = some s') :
    ∃ e lock, next s.pipe (s.killed p) (s.pc p) = some e ∧
      e.lock.apply p s.lock = some lock ∧ s' = s.after p e lock := by
  obtain ⟨e, he, h⟩ := Option.bind_eq_some_iff.1 h
  obtain ⟨lock, hl, rfl⟩ := Option.map_eq_some_iff.1 h
  exact ⟨e, lock, he, hl, rfl⟩

@[simp] theorem after_pc_self : (s.after p e lock).pc p = e.pc := by simp [State.after]

theorem after_pc_of_ne (h : q ≠ p) : (s.after p e lock).pc q = e.wake.elim (s.pc q) fun c => (s.pc q).wake c := by
  simp [State.after, h]

@[simp] theorem wake_holds (c : Chan) (x : Pc) : (x.wake c).holds = x.holds := by
  cases x <;> simp only [Pc.wake] <;> split <;> rfl

@[simp] theorem stir_holds (x : Pc) : x.stir.holds = x.holds := by simp [Pc.stir]

theorem after_holds_of_ne (h : q ≠ p) : ((s.after p e lock).pc q).holds = (s.pc q).holds := by
  rw [after_pc_of_ne h]
  cases e.wake <;> simp

end

/-! ## The lock -/

/-- Who is between `acquire` and `release` has the lock. -/
def Holder {P : Type} (s : State P) : Prop := ∀ p, (s.pc p).holds = true ↔ s.lock = some p

theorem next_holds {pi : Pipe} {killed : Bool} {x : Pc} (h : next pi killed x = some e) :
    e.lock = .acquire ∧ x.holds = false ∧ e.pc.holds = true ∨ e.lock = .release ∧ x.holds = true ∧ e.pc.holds = false ∨
      e.lock = .keep ∧ x.holds = true ∧ e.pc.holds = true := by
  cases x <;> simp only [next, reduceCtorEq] at h
  all_goals (try split at h) <;> cases h <;> simp [Pc.holds]

theorem Holder.unique (h : Holder s) {p q : P} (hp : (s.pc p).holds = true) (hq : (s.pc q).holds = true) :
    p = q := by
  have h1 := (h p).1 hp
  have h2 := (h q).1 hq
  rw [h1] at h2
  exact Option.some.inj h2

theorem pipealloc_holder (h : pipealloc s) : Holder s := by
  obtain ⟨data, killed, rfl⟩ := h; intro p; simp [Pc.holds]

variable [DecidableEq P]

theorem holder_step {a : Act P} (hh : Holder s) (h : step s a = some s') : Holder s' := by
  intro q
  cases a with
  | call p c =>
    obtain ⟨hp, rfl⟩ := step_call h
    rw [← hh q]
    by_cases hq : q = p
    · subst hq
      simp only [update_self, hp]
      cases c <;> rfl
    · simp only [update_of_ne hq]
  | kill p =>
    cases h
    rw [← hh q]
    by_cases hq : q = p
    · subst hq; simp
    · simp only [update_of_ne hq]
  | step p =>
    obtain ⟨e, lock, he, hl, rfl⟩ := step_step h
    show _ ↔ lock = some q
    rcases next_holds he with ⟨hlock, hx, hy⟩ | ⟨hlock, hx, hy⟩ | ⟨hlock, hx, hy⟩
    · -- acquire
      rw [hlock] at hl
      obtain ⟨hfree, ⟨⟩⟩ := Option.ite_none_right_eq_some.1 hl
      by_cases hq : q = p
      · subst hq; simp [hy]
      · rw [after_holds_of_ne hq, hh q, hfree]; simp [Ne.symm hq]
    · -- release
      rw [hlock] at hl
      cases hl
      by_cases hq : q = p
      · subst hq; simp [hy]
      · rw [after_holds_of_ne hq, hh q, (hh p).1 hx]; simp [Ne.symm hq]
    · rw [hlock] at hl
      cases hl
      by_cases hq : q = p
      · subst hq; simp [hy, (hh q).1 hx]
      · rw [after_holds_of_ne hq, hh q]

end Xv6.Ipc
