/-
The process table and the per-CPU run queues of `proc.c`: the data of `struct proc` and `struct
cpu` that scheduling reads, and the functions over them as the source computes them. A `struct proc
*` is a slot of the table; the run queues are linked through `next_run`, so a loop over a queue is
a pointer loop with fuel `NPROC`, which a list without repetition cannot exhaust, and `none` is a
loop that never ends (or a panic). Every function here runs with `ptable.lock` held.
-/
import Xv6.Base.Chain
import Mathlib.Algebra.GroupWithZero.Nat
import Mathlib.Data.List.FinRange

namespace Xv6.Sched

open Base Function

/-! ## Data -/

/-- `NPROC` of `param.h`. -/
def NPROC : Nat := 64

instance : NeZero NPROC := ⟨by decide⟩

/-- A `struct proc *` into `ptable.proc`. -/
abbrev Slot := Fin NPROC

inductive ProcState
  | unused | embryo | sleeping | runnable | running | zombie
  deriving DecidableEq, Repr

inductive CoreType
  | coreE | coreP
  deriving DecidableEq, Repr

/-- A wait channel: the address of a process, of `ticks`, of `input.r`, or of another kernel
object. -/
inductive Chan
  | proc (p : Slot)
  | ticks
  | inputR
  | addr (a : Nat)
  deriving DecidableEq, Repr

structure Proc where
  state : ProcState := .unused
  pid : Int := 0
  parent : Option Slot := none
  chan : Option Chan := none
  killed : Bool := false
  ctime : UInt32 := 0
  sliceTicks : Int := 0
  etime : UInt32 := 0
  nextRun : Option Slot := none
  deriving DecidableEq, Repr

structure Cpu where
  coreType : CoreType
  proc : Option Slot := none
  runq : Option Slot := none
  queueCount : Int := 0
  deriving DecidableEq, Repr

/-- How far a process is inside `fork`, with its local variable `np`. -/
inductive ForkPc
  | out
  | allocated (np : Slot)
  | copied (np : Slot)
  deriving DecidableEq, Repr

/-- The kernel state scheduling works on, with `n` CPUs. `boot` is the local variable `p` of
`userinit` while it runs. -/
structure Kernel (n : Nat) where
  proc : Slot → Proc
  cpus : Fin n → Cpu
  fork : Slot → ForkPc
  nextpid : Int
  initproc : Option Slot
  boot : Option Slot
  ticks : UInt32
  metricsActive : Bool
  metricsStartTick : UInt32
  metricsProcCompleted : Int

variable {n : Nat}

namespace Kernel

def next (s : Kernel n) (p : Slot) : Option Slot := (s.proc p).nextRun

/-- Assign to fields of one process. -/
def modProc (s : Kernel n) (p : Slot) (f : Proc → Proc) : Kernel n :=
  { s with proc := update s.proc p (f (s.proc p)) }

/-- Assign to fields of one CPU. -/
def modCpu (s : Kernel n) (c : Fin n) (f : Cpu → Cpu) : Kernel n :=
  { s with cpus := update s.cpus c (f (s.cpus c)) }

def setState (s : Kernel n) (p : Slot) (st : ProcState) : Kernel n := s.modProc p fun q => { q with state := st }

def setNext (s : Kernel n) (p : Slot) (q : Option Slot) : Kernel n := s.modProc p fun r => { r with nextRun := q }

def setFork (s : Kernel n) (p : Slot) (pc : ForkPc) : Kernel n := { s with fork := update s.fork p pc }

end Kernel

/-! ## Run queues -/

def enqueue (s : Kernel n) (c : Fin n) (p : Slot) : Option (Kernel n) :=
  let s := s.setNext p none
  match (s.cpus c).runq with
  | none => some (s.modCpu c fun k => { k with runq := some p, queueCount := k.queueCount + 1 })
  | some h => do
    let curr ← lastFrom s.next NPROC h
    let s := s.setNext curr (some p)
    some (s.modCpu c fun k => { k with queueCount := k.queueCount + 1 })

/-- `dequeue`: the value returned and the state after it. -/
def dequeue (s : Kernel n) (c : Fin n) (p : Slot) : Option (Int × Kernel n) :=
  match (s.cpus c).runq with
  | none => some (-1, s)
  | some h =>
    if h = p then
      let s := s.modCpu c fun k => { k with runq := s.next p, queueCount := k.queueCount - 1 }
      some (0, s.setNext p none)
    else do
      match ← prevFrom s.next p NPROC h with
      | none => some (-1, s)
      | some curr =>
        let s := s.setNext curr (s.next p)
        let s := s.modCpu c fun k => { k with queueCount := k.queueCount - 1 }
        some (0, s.setNext p none)

/-- The loop of `get_least_loaded_e_core` and `get_lightest_p_core`: the first CPU of type `t` with
the smallest `queue_count` below `0x7FFFFFFF`. -/
def lightest (s : Kernel n) (t : CoreType) : Option (Fin n) :=
  ((List.finRange n).foldl (fun (b : Option (Fin n) × Int) i =>
    if (s.cpus i).coreType = t ∧ (s.cpus i).queueCount < b.2 then (some i, (s.cpus i).queueCount) else b)
    (none, 0x7FFFFFFF)).1

def getLeastLoadedECore [NeZero n] (s : Kernel n) : Fin n := (lightest s .coreE).getD 0

def getLightestPCore (s : Kernel n) : Option (Fin n) := lightest s .coreP

/-- The first movable process of `load_balance`: `RUNNABLE` and neither init nor sh. -/
def movable (s : Kernel n) (p : Slot) : Bool := (s.proc p).state = .runnable ∧ (s.proc p).pid > 2

/-- The loop of `load_balance` over the queue of `c`. -/
def victim (s : Kernel n) (c : Fin n) : Option (Option Slot) :=
  findFrom s.next (movable s) NPROC (s.cpus c).runq

/-- `load_balance`, called on CPU `c`. -/
def loadBalance (s : Kernel n) (c : Fin n) : Option (Kernel n) :=
  if (s.cpus c).coreType ≠ .coreE then some s
  else
    match getLightestPCore s with
    | none => some s
    | some d =>
      if (s.cpus c).queueCount ≥ (s.cpus d).queueCount + 3 then do
        match ← victim s c with
        | none => some s
        | some v =>
          let (_, s) ← dequeue s c v
          enqueue s d v
      else some s

/-! ## Process creation -/

/-- `allocproc`, up to the allocation of the kernel stack. -/
def allocproc (s : Kernel n) : Option Slot × Kernel n :=
  match (List.finRange NPROC).find? fun p => (s.proc p).state = .unused with
  | none => (none, s)
  | some p =>
    let s := s.modProc p fun q => { q with state := .embryo, pid := s.nextpid, ctime := s.ticks,
                                           sliceTicks := 0, nextRun := none, etime := 0 }
    (some p, { s with nextpid := s.nextpid + 1 })

/-- The locked tail of `userinit` and of `fork`. -/
def makeRunnable [NeZero n] (s : Kernel n) (p : Slot) : Option (Kernel n) :=
  let s := s.setState p .runnable
  enqueue s (getLeastLoadedECore s) p

/-! ## The scheduler -/

/-- The choice of the P-core loop: the process with the smallest `ctime`, the first of equals. -/
def older (s : Kernel n) (oldest : Option Slot) (curr : Slot) : Option Slot :=
  if (s.proc curr).state = .runnable then
    match oldest with
    | none => some curr
    | some o => if (s.proc curr).ctime < (s.proc o).ctime then some curr else some o
  else oldest

/-- The process `scheduler` selects from the queue of `c`. -/
def select (s : Kernel n) (c : Fin n) : Option (Option Slot) :=
  match (s.cpus c).coreType with
  | .coreE => findFrom s.next (fun p => (s.proc p).state = .runnable) NPROC (s.cpus c).runq
  | .coreP => foldFrom s.next (older s) NPROC none (s.cpus c).runq

/-- The switch to a selected process. The process resumes inside `sched` with `ptable.lock` still
held, and `sleep` clears `p->chan` before it gives the lock up; for a process that did not sleep
`chan` is 0 already. -/
def dispatch (s : Kernel n) (c : Fin n) (p : Slot) : Kernel n :=
  (s.modCpu c fun k => { k with proc := some p }).modProc p fun q =>
    { q with sliceTicks := 0, state := .running, chan := none }

/-- The rest of a round of `scheduler`, from the choice of a process on. -/
def schedulerPick (s : Kernel n) (c : Fin n) : Option (Kernel n) := do
  match ← select s c with
  | none => some s
  | some p =>
    let (r, s) ← dequeue s c p
    if r ≠ 0 then some s else some (dispatch s c p)

/-- One round of the loop of `scheduler` on CPU `c`, up to the switch. -/
def scheduler (s : Kernel n) (c : Fin n) : Option (Kernel n) :=
  if (s.cpus c).coreType = .coreE ∧ s.ticks % 5 = 0 then do
    let s ← loadBalance s c
    schedulerPick s c
  else schedulerPick s c

/-- `sched` on CPU `c`, with the `c->proc = 0` that `scheduler` does on its side of the switch. -/
def sched (s : Kernel n) (c : Fin n) : Option (Kernel n) := do
  let p ← (s.cpus c).proc
  if (s.proc p).state = .running then none  -- panic("sched running")
  else some (s.modCpu c fun k => { k with proc := none })

/-- `yield` by the process running on `c`. -/
def yield (s : Kernel n) (c : Fin n) : Option (Kernel n) := do
  let p ← (s.cpus c).proc
  let s := s.setState p .runnable
  let s ← enqueue s c p
  sched s c

/-- `sleep` by the process running on `c`, once it holds `ptable.lock`. -/
def sleep (s : Kernel n) (c : Fin n) (chan : Option Chan) : Option (Kernel n) := do
  let p ← (s.cpus c).proc
  sched (s.modProc p fun q => { q with chan := chan, state := .sleeping }) c

/-- One round of the loop of `wakeup1`. -/
def wakeOne [NeZero n] (chan : Option Chan) (s : Kernel n) (p : Slot) : Option (Kernel n) :=
  if (s.proc p).state = .sleeping ∧ (s.proc p).chan = chan then makeRunnable s p else some s

def wakeup1 [NeZero n] (chan : Option Chan) (s : Kernel n) : Option (Kernel n) :=
  (List.finRange NPROC).foldlM (wakeOne chan) s

/-! ## Exit, wait and kill -/

/-- One round of the loop of `exit` that passes abandoned children to init. -/
def reparent [NeZero n] (curproc : Slot) (s : Kernel n) (p : Slot) : Option (Kernel n) :=
  if (s.proc p).parent = some curproc then
    let s := s.modProc p fun q => { q with parent := s.initproc }
    if (s.proc p).state = .zombie then wakeup1 (s.initproc.map .proc) s else some s
  else some s

/-- `exit` by the process running on `c`, from `acquire(&ptable.lock)` on. -/
def exit [NeZero n] (s : Kernel n) (c : Fin n) : Option (Kernel n) := do
  let curproc ← (s.cpus c).proc
  if s.initproc = some curproc then none  -- panic("init exiting")
  else
    let s := s.modProc curproc fun q => { q with etime := s.ticks }
    let s := if s.metricsActive then { s with metricsProcCompleted := s.metricsProcCompleted + 1 } else s
    let s ← wakeup1 ((s.proc curproc).parent.map .proc) s
    let s ← (List.finRange NPROC).foldlM (reparent curproc) s
    sched (s.setState curproc .zombie) c

/-- What one round of `wait` does: return a pid (or -1), or go to sleep. -/
inductive WaitRes
  | ret (pid : Int)
  | slept
  deriving DecidableEq, Repr

/-- One round of the loop of `wait` by the process running on `c`. -/
def wait (s : Kernel n) (c : Fin n) : Option (WaitRes × Kernel n) := do
  let curproc ← (s.cpus c).proc
  match (List.finRange NPROC).find? fun p => (s.proc p).parent = some curproc ∧ (s.proc p).state = .zombie with
  | some p =>
    some (.ret (s.proc p).pid,
      s.modProc p fun q => { q with pid := 0, parent := none, killed := false, state := .unused })
  | none =>
    if (∀ p, (s.proc p).parent ≠ some curproc) ∨ (s.proc curproc).killed = true then some (.ret (-1), s)
    else do
      let s ← sleep s c (some (.proc curproc))
      some (.slept, s)

/-- The process `kill` acts on: the first one in table order with that pid. -/
def killTarget (s : Kernel n) (pid : Int) : Option Slot :=
  (List.finRange NPROC).find? fun p => (s.proc p).pid = pid

def kill (s : Kernel n) (pid : Int) : Int × Kernel n :=
  match killTarget s pid with
  | none => (-1, s)
  | some p =>
    (0, s.modProc p fun q =>
      { q with killed := true, state := if q.state = .sleeping then .runnable else q.state })

/-! ## Clock and measurement -/

/-- The `p->slice_ticks++` of the timer handler on CPU `c`. -/
def sliceTick (s : Kernel n) (c : Fin n) : Kernel n :=
  match (s.cpus c).proc with
  | some p => if (s.proc p).state = .running then s.modProc p fun q => { q with sliceTicks := q.sliceTicks + 1 } else s
  | none => s

def startMeasure (s : Kernel n) : Kernel n :=
  { s with metricsActive := true, metricsStartTick := s.ticks, metricsProcCompleted := 0 }

/-- The locked part of `end_measure`: the duration and the count it prints, or nothing (it returns
-1) when no measurement runs. -/
def endMeasure (s : Kernel n) : Option (UInt32 × Int) × Kernel n :=
  if s.metricsActive then
    (some (s.ticks - s.metricsStartTick, s.metricsProcCompleted), { s with metricsActive := false })
  else (none, s)

/-! ## Initial states -/

/-- The state before `userinit`: no process, empty queues, the core types set by `main` and
`mpmain`. -/
def bootKernel (types : Fin n → CoreType) : Kernel n :=
  { proc := fun _ => {}, cpus := fun c => { coreType := types c }, fork := fun _ => .out, nextpid := 1,
    initproc := none, boot := none, ticks := 0, metricsActive := false, metricsStartTick := 0,
    metricsProcCompleted := 0 }

/-- The core types of `mpmain`: even CPUs are E-cores, odd ones P-cores. -/
def mpmainTypes (c : Fin n) : CoreType := if c.val % 2 = 0 then .coreE else .coreP

end Xv6.Sched
