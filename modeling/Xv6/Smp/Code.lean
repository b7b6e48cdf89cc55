/-
The kernel at the grain of its spin locks: every function that takes `ptable.lock`, `tickslock` or
`cons.lock` is cut at its `acquire` and `release` calls into program points, and the code between
two of them is one step of the CPU that runs it. A CPU stands at one point, with at most one
interrupted point below it, since interrupts are off while a lock is held and in a handler. A
process that gives up the CPU leaves its control behind in `saved` and the CPU goes on in
`scheduler`; both sides of the switch hold `ptable.lock`.

Other spin locks of the kernel are `Lk.other`; the code under them may sleep and wake as pipes, the
log, sleep locks and the disk driver do. Output under `cons.lock` is any text.
-/
import Xv6.Base.Run
import Xv6.Base.Spin
import Xv6.Sched.Table
import Xv6.Console.Input

namespace Xv6.Smp

open Base Base.Spin Sched Console

variable {n : Nat}

/-! ## Program points -/

/-- The spin locks. -/
inductive Lk
  | ptable
  | tickslock
  | cons
  | other (a : Nat)
  deriving DecidableEq, Repr

/-- The callers of `allocproc`. -/
inductive Creator
  | userinit
  | fork
  deriving DecidableEq, Repr

/-- A system call that is one section under `ptable.lock`. -/
inductive Section
  | exit
  | wait
  | kill (pid : Int)
  | family
  | startMeasure
  | endMeasure
  deriving DecidableEq, Repr

/-- The callers of `sleep`, with what they keep across it. -/
inductive Sleeper
  | sysSleep (ticks0 n : UInt32)
  | consoleread (target n : Nat) (out : List UInt8)
  | other (a : Nat) (chan : Chan)
  deriving DecidableEq, Repr

/-- The lock a sleeper gives to `sleep`. -/
def Sleeper.lk : Sleeper → Lk
  | .sysSleep _ _ => .tickslock
  | .consoleread _ _ _ => .cons
  | .other a _ => .other a

theorem Sleeper.lk_ne (w : Sleeper) : w.lk ≠ .ptable := by cases w <;> nofun

def Sleeper.chan : Sleeper → Chan
  | .sysSleep _ _ => .ticks
  | .consoleread _ _ _ => .inputR
  | .other _ chan => chan

/-- The callers of `wakeup`: `consoleintr` goes on with the keys not yet read. -/
inductive Waker
  | timer
  | consoleintr (rest : List UInt8) (doprocdump : Bool)
  | other (a : Nat) (chan : Chan)
  deriving DecidableEq, Repr

/-- The lock a waker holds. -/
def Waker.lk : Waker → Lk
  | .timer => .tickslock
  | .consoleintr _ _ => .cons
  | .other a _ => .other a

theorem Waker.lk_ne (k : Waker) : k.lk ≠ .ptable := by cases k <;> nofun

def Waker.chan : Waker → Chan
  | .timer => .ticks
  | .consoleintr _ _ => .inputR
  | .other _ chan => chan

/-- The callers of `cprintf` and `consolewrite`: `print_info` and `procdump` go on with row `i`. -/
inductive Printer
  | printInfo (i : Nat)
  | procdump (i : Nat)
  | call
  deriving DecidableEq, Repr

def Printer.held : Printer → List Lk
  | .printInfo _ => [.ptable]
  | .procdump _ => []
  | .call => []

theorem Printer.cons_not_held (k : Printer) : Lk.cons ∉ k.held := by cases k <;> simp [held]

/-- The points. `ret` is the end of a handler, or user mode at the bottom of the stack. -/
inductive Point
  | ret
  -- scheduler
  | schedAcquire
  | schedRun
  | schedRelease
  -- allocproc, userinit and fork
  | allocAcquire (f : Creator)
  | allocScan (f : Creator)
  | allocNone (f : Creator)
  | allocTicks (f : Creator) (p : Slot)
  | allocInit (f : Creator) (p : Slot)
  | allocTicksRelease (f : Creator) (p : Slot)
  | allocRelease (f : Creator) (p : Slot)
  | allocStack (f : Creator) (p : Slot)
  | copy (f : Creator) (p : Slot)
  | runAcquire (f : Creator) (p : Slot)
  | runRun (f : Creator) (p : Slot)
  | runRelease (f : Creator)
  -- exit, wait, kill and the like
  | secAcquire (x : Section)
  | secRun (x : Section)
  | ptRelease
  -- sleep
  | sleepAcquire (w : Sleeper)
  | sleepRelease (w : Sleeper)
  | sleepRun (w : Sleeper)
  | sleepDone (w : Sleeper)
  | sleepReacquire (w : Sleeper)
  -- wakeup
  | wakeAcquire (k : Waker)
  | wakeRun (k : Waker)
  | wakeRelease (k : Waker)
  -- the timer interrupt and yield
  | timerAcquire
  | timerTick
  | timerRelease
  | timerSlice
  | yieldAcquire
  | yieldRun
  -- sys_sleep and sys_uptime
  | sysSleepAcquire (n : UInt32)
  | sysSleepStart (n : UInt32)
  | sysSleepLoop (ticks0 n : UInt32)
  | uptimeAcquire
  | ticksRelease
  -- cprintf and consolewrite
  | printAcquire (k : Printer)
  | printRun (k : Printer)
  | printRelease (k : Printer)
  -- print_info
  | infoAcquire
  | infoRow (i : Nat)
  -- consoleintr and procdump
  | intrAcquire (keys : List UInt8)
  | intrKeys (keys : List UInt8) (doprocdump : Bool)
  | intrRelease (doprocdump : Bool)
  | dumpRow (i : Nat)
  -- consoleread
  | readAcquire (n : Nat)
  | readLoop (target n : Nat) (out : List UInt8)
  | consRelease
  -- code under another lock
  | otherAcquire (a : Nat)
  | otherRun (a : Nat)
  | otherRelease (a : Nat)
  deriving DecidableEq, Repr

namespace Point

/-- Where the caller of `sleep` goes on. -/
def afterSleep : Sleeper → Point
  | .sysSleep ticks0 n => .sysSleepLoop ticks0 n
  | .consoleread target n out => .readLoop target n out
  | .other a _ => .otherRun a

/-- Where the caller of `wakeup` goes on. -/
def afterWakeup : Waker → Point
  | .timer => .timerRelease
  | .consoleintr rest d => .intrKeys rest d
  | .other a _ => .otherRun a

/-- Where the caller of `cprintf` goes on. -/
def afterPrint : Printer → Point
  | .printInfo i => .infoRow i
  | .procdump i => .dumpRow i
  | .call => .ret

/-- The lock operation at a point. -/
def instr : Point → Instr Lk Point
  | .schedAcquire => .acquire .ptable .schedRun
  | .schedRelease => .release .ptable .schedAcquire
  | .allocAcquire f => .acquire .ptable (.allocScan f)
  | .allocNone _ => .release .ptable .ret
  | .allocTicks f p => .acquire .tickslock (.allocInit f p)
  | .allocTicksRelease f p => .release .tickslock (.allocRelease f p)
  | .allocRelease f p => .release .ptable (.allocStack f p)
  | .runAcquire f p => .acquire .ptable (.runRun f p)
  | .runRelease .userinit => .release .ptable .schedAcquire
  | .runRelease .fork => .release .ptable .ret
  | .secAcquire x => .acquire .ptable (.secRun x)
  | .ptRelease => .release .ptable .ret
  | .sleepAcquire w => .acquire .ptable (.sleepRelease w)
  | .sleepRelease w => .release w.lk (.sleepRun w)
  | .sleepDone w => .release .ptable (.sleepReacquire w)
  | .sleepReacquire w => .acquire w.lk (afterSleep w)
  | .wakeAcquire k => .acquire .ptable (.wakeRun k)
  | .wakeRelease k => .release .ptable (afterWakeup k)
  | .timerAcquire => .acquire .tickslock .timerTick
  | .timerRelease => .release .tickslock .timerSlice
  | .yieldAcquire => .acquire .ptable .yieldRun
  | .sysSleepAcquire n => .acquire .tickslock (.sysSleepStart n)
  | .uptimeAcquire => .acquire .tickslock .ticksRelease
  | .ticksRelease => .release .tickslock .ret
  | .printAcquire k => .acquire .cons (.printRun k)
  | .printRelease k => .release .cons (afterPrint k)
  -- the header is printed first
  | .infoAcquire => .acquire .ptable (.printAcquire (.printInfo 0))
  | .intrAcquire keys => .acquire .cons (.intrKeys keys false)
  | .intrRelease d => .release .cons (if d then .dumpRow 0 else .ret)
  | .readAcquire n => .acquire .cons (.readLoop n n [])
  | .consRelease => .release .cons .ret
  | .otherAcquire a => .acquire (.other a) (.otherRun a)
  | .otherRelease a => .release (.other a) .ret
  | _ => .run

def held : Point → List Lk
  | .schedRun | .schedRelease | .allocScan _ | .allocNone _ | .allocTicks _ _ | .allocRelease _ _ | .runRun _ _
  | .runRelease _ | .secRun _ | .ptRelease | .sleepRun _ | .sleepDone _ | .yieldRun | .infoRow _ => [.ptable]
  | .allocInit _ _ | .allocTicksRelease _ _ => [.tickslock, .ptable]
  | .sleepAcquire w => [w.lk]
  | .sleepRelease w => [.ptable, w.lk]
  | .wakeAcquire k => [k.lk]
  | .wakeRun k | .wakeRelease k => [.ptable, k.lk]
  | .timerTick | .timerRelease | .sysSleepStart _ | .sysSleepLoop _ _ | .ticksRelease => [.tickslock]
  | .printAcquire k => k.held
  | .printRun k | .printRelease k => .cons :: k.held
  | .intrKeys _ _ | .intrRelease _ | .readLoop _ _ _ | .consRelease => [.cons]
  | .otherRun a | .otherRelease a => [.other a]
  | _ => []

/-- Interrupts are on, when no lock is held: `userinit` runs before the first `sti`. -/
def intena : Point → Bool
  | .allocAcquire .userinit | .allocStack .userinit _ | .copy .userinit _ | .runAcquire .userinit _ => false
  | _ => true

@[simp] theorem held_afterSleep (w : Sleeper) : (afterSleep w).held = [w.lk] := by cases w <;> rfl

@[simp] theorem held_afterWakeup (k : Waker) : (afterWakeup k).held = [k.lk] := by cases k <;> rfl

@[simp] theorem held_afterPrint (k : Printer) : (afterPrint k).held = k.held := by cases k <;> rfl

variable {p q : Point} {l : Lk}

theorem held_acquire (h : p.instr = .acquire l q) : l ∉ p.held ∧ q.held = l :: p.held := by
  cases p
  case runRelease f => cases f <;> cases h
  case sleepAcquire w => cases h; exact ⟨fun hm => w.lk_ne (List.mem_singleton.1 hm).symm, rfl⟩
  case wakeAcquire k => cases h; exact ⟨fun hm => k.lk_ne (List.mem_singleton.1 hm).symm, rfl⟩
  case sleepReacquire w => cases h; exact ⟨List.not_mem_nil, held_afterSleep w⟩
  case printAcquire k => cases h; exact ⟨k.cons_not_held, rfl⟩
  case allocTicks f p => cases h; exact ⟨(nomatch List.mem_singleton.1 ·), rfl⟩
  all_goals first
    | (cases h; done)
    | (cases h; exact ⟨List.not_mem_nil, rfl⟩)

theorem held_release_last (h : p.held = l :: q.held) (hl : l ∉ q.held) :
    l ∈ p.held ∧ ∀ m, m ∈ q.held ↔ m ≠ l ∧ m ∈ p.held := by
  rw [h]
  refine ⟨List.mem_cons_self .., fun m => ⟨fun hm => ⟨?_, List.mem_cons_of_mem l hm⟩, fun hm => ?_⟩⟩
  · rintro rfl; exact hl hm
  · exact (List.mem_cons.1 hm.2).resolve_left hm.1

theorem held_release (h : p.instr = .release l q) : l ∈ p.held ∧ ∀ m, m ∈ q.held ↔ m ≠ l ∧ m ∈ p.held := by
  cases p
  case sleepRelease w =>
    -- `sleep` gives its caller's lock back while it keeps `ptable.lock`
    cases h
    have hne := w.lk_ne
    show w.lk ∈ [Lk.ptable, w.lk] ∧ ∀ m, m ∈ [Lk.ptable] ↔ m ≠ w.lk ∧ m ∈ [Lk.ptable, w.lk]
    refine ⟨by simp, fun m => ?_⟩
    simp only [List.mem_cons, List.not_mem_nil, or_false]
    exact ⟨fun hm => ⟨hm ▸ hne.symm, .inl hm⟩, fun hm => hm.2.resolve_right hm.1⟩
  case wakeRelease k =>
    cases h
    refine held_release_last (by rw [held_afterWakeup]; rfl) fun hm => ?_
    rw [held_afterWakeup] at hm
    exact k.lk_ne (List.mem_singleton.1 hm).symm
  case printRelease k =>
    cases h
    exact held_release_last (by rw [held_afterPrint]; rfl) (by rw [held_afterPrint]; exact k.cons_not_held)
  case allocTicksRelease f p => cases h; exact held_release_last rfl (nomatch List.mem_singleton.1 ·)
  case runRelease f => cases f <;> (cases h; exact held_release_last rfl List.not_mem_nil)
  case intrRelease d => cases h; cases d <;> exact held_release_last rfl List.not_mem_nil
  all_goals first
    | (cases h; done)
    | (cases h; exact held_release_last rfl List.not_mem_nil)

end Point

/-! ## Control -/

/-- A point at which no lock is held. -/
abbrev Idle := { p : Point // p.held = [] }

/-- The point a CPU stands at, and the one its handler interrupted. -/
structure Ctl where
  top : Point
  below : Option Idle := none

/-- Where a process resumes that left the CPU in `sched`: at the end of `yield` (and in `forkret`),
in `sleep` and in the loop of `wait`, with `ptable.lock` held. -/
inductive Resume
  | release
  | sleep (w : Sleeper)
  | wait
  deriving DecidableEq, Repr

def Resume.point : Resume → Point
  | .release => .ptRelease
  | .sleep w => .sleepDone w
  | .wait => .secRun .wait

/-- What a process leaves behind in `sched`. -/
structure Saved where
  top : Resume := .release
  below : Option Idle := none

namespace Ctl

def goto (q : Ctl) (p : Point) : Ctl := { q with top := p }

def held (q : Ctl) : List Lk := q.top.held

def instr (q : Ctl) : Instr Lk Ctl :=
  match q.top.instr with
  | .acquire l p => .acquire l (q.goto p)
  | .release l p => .release l (q.goto p)
  | .run => .run

theorem instr_acquire {q r : Ctl} {l : Lk} (h : q.instr = .acquire l r) :
    q.top.instr = .acquire l r.top ∧ r.below = q.below := by
  unfold instr at h
  split at h
  · rename_i hp; cases h; exact ⟨hp, rfl⟩
  · cases h
  · cases h

theorem instr_release {q r : Ctl} {l : Lk} (h : q.instr = .release l r) :
    q.top.instr = .release l r.top ∧ r.below = q.below := by
  unfold instr at h
  split at h
  · cases h
  · rename_i hp; cases h; exact ⟨hp, rfl⟩
  · cases h

end Ctl

/-- The kernel's code with respect to its locks. -/
def code : Code Lk Ctl where
  instr := Ctl.instr
  held := Ctl.held
  acquire h := Point.held_acquire (Ctl.instr_acquire h).1
  release h := Point.held_release (Ctl.instr_release h).1

/-! ## The code between lock operations -/

/-- What the locks protect, and the control of the processes that do not run. -/
structure Data (n : Nat) where
  k : Kernel n
  con : Input
  saved : Slot → Saved

inductive Call
  | fork
  | locked (x : Section)
  | sleep (n : UInt32)
  | uptime
  | printInfo
  | read (n : Nat)
  | print
  | other (a : Nat)
  deriving DecidableEq, Repr

def Call.entry : Call → Point
  | .fork => .allocAcquire .fork
  | .locked x => .secAcquire x
  | .sleep n => .sysSleepAcquire n
  | .uptime => .uptimeAcquire
  | .printInfo => .infoAcquire
  | .read n => .readAcquire n
  | .print => .printAcquire .call
  | .other a => .otherAcquire a

/-- What the data does not determine: the system call made, an allocation that fails, the text
printed, another pc on a sleeper's stack, and what the code under another lock does. -/
inductive Choice
  | go
  | call (y : Call)
  | fail
  | put (gs : List Glyph)
  | pc
  | sleep (chan : Chan)
  | wakeup (chan : Chan)
  deriving DecidableEq, Repr

/-- `allocproc` up to `acquire(&tickslock)`. -/
def allocScan (k : Kernel n) : Option (Slot × Kernel n) :=
  match (List.finRange NPROC).find? fun p => (k.proc p).state = .unused with
  | none => none
  | some p =>
    some (p, { k.modProc p fun q => { q with state := .embryo, pid := k.nextpid } with nextpid := k.nextpid + 1 })

/-- `allocproc` under `tickslock`. -/
def allocInit (k : Kernel n) (p : Slot) : Kernel n :=
  k.modProc p fun q => { q with ctime := k.ticks, sliceTicks := 0, nextRun := none, etime := 0 }

theorem allocproc_eq (k : Kernel n) :
    allocproc k = match allocScan k with
      | none => (none, k)
      | some (p, k') => (some p, allocInit k' p) := by
  unfold allocproc allocScan
  cases hp : (List.finRange NPROC).find? fun p => (k.proc p).state = .unused with
  | none => rfl
  | some p => simp [allocInit, Kernel.modProc]

def killed (k : Kernel n) (c : Fin n) : Bool := (k.cpus c).proc.any fun p => (k.proc p).killed

/-- `sys_sleep` calls `sleep`. -/
def sleepsOn (k : Kernel n) (c : Fin n) (ticks0 m : UInt32) : Bool := k.ticks - ticks0 < m && !killed k c

def RR_QUANTUM_TICKS : Int := 3

/-- The end of the timer interrupt on CPU `c`: the tick is counted, and the process may have to
`yield`. -/
def timerSlice (k : Kernel n) (c : Fin n) : Kernel n × Bool :=
  let k := sliceTick k c
  match (k.cpus c).proc with
  | none => (k, false)
  | some p =>
    if (k.proc p).state = .running then
      match (k.cpus c).coreType with
      | .coreE =>
        if (k.proc p).sliceTicks ≥ RR_QUANTUM_TICKS then (k.modProc p fun q => { q with sliceTicks := 0 }, true)
        else (k, false)
      | .coreP => (k, true)
    else (k, false)

namespace Data

def setK (d : Data n) (k : Kernel n) : Data n := { d with k := k }

/-- The process running on `c` switches to `scheduler`, with `v` to resume at. -/
def switch (d : Data n) (c : Fin n) (v : Saved) (k : Kernel n) : Data n × Ctl :=
  ({ d with k := k, saved := fun p => if (d.k.cpus c).proc = some p then v else d.saved p }, { top := .schedRelease })

/-- `scheduler` switches to the process it has chosen, or ends its round. -/
def resume (d : Data n) (c : Fin n) (k : Kernel n) : Data n × Ctl :=
  match (k.cpus c).proc with
  | some p => (d.setK k, { top := (d.saved p).top.point, below := (d.saved p).below })
  | none => (d.setK k, { top := .schedRelease })

end Data

/-- A system call from user mode, or the return from an interrupt. -/
def runRet (d : Data n) (c : Fin n) (q : Ctl) (x : Choice) : Option (Data n × Ctl) :=
  match q.below, x with
  | some b, _ => some (d, { top := b.1 })
  | none, .call y => if (d.k.cpus c).proc = none then none else some (d, { top := y.entry })
  | none, _ => none

/-- The rest of `allocproc`; a kernel without memory for `init` does not come up. -/
def runStack (d : Data n) (q : Ctl) (f : Creator) (p : Slot) (x : Choice) : Option (Data n × Ctl) :=
  if x = .fail then
    match f with
    | .userinit => none
    | .fork => some (d.setK (d.k.setState p .unused), q.goto .ret)
  else
    some ({ d with saved := Function.update d.saved p {} }, q.goto (.copy f p))

/-- `userinit` and `fork` between `allocproc` and their locked tail. -/
def runCopy (d : Data n) (c : Fin n) (q : Ctl) (f : Creator) (p : Slot) (x : Choice) : Option (Data n × Ctl) :=
  match f with
  | .userinit => some (d.setK { d.k with initproc := some p }, q.goto (.runAcquire f p))
  | .fork =>
    if x = .fail then some (d.setK (d.k.setState p .unused), q.goto .ret)
    else some (d.setK (d.k.modProc p fun r => { r with parent := (d.k.cpus c).proc }), q.goto (.runAcquire f p))

def runSection [NeZero n] (d : Data n) (c : Fin n) (q : Ctl) : Section → Option (Data n × Ctl)
  | .exit => (exit d.k c).map (d.switch c {})
  | .wait =>
    (wait d.k c).map fun r =>
      match r with
      | (.ret _, k) => (d.setK k, q.goto .ptRelease)
      | (.slept, k) => d.switch c ⟨.wait, q.below⟩ k
  | .kill pid => some (d.setK (kill d.k pid).2, q.goto .ptRelease)
  | .family => some (d, q.goto .ptRelease)
  | .startMeasure => some (d.setK (startMeasure d.k), q.goto .ptRelease)
  | .endMeasure => some (d.setK (endMeasure d.k).2, q.goto .ptRelease)

/-- One key of `consoleintr`. The assignments behind its `wakeup` are made before it: the console
is locked throughout. -/
def runKeys (d : Data n) (q : Ctl) (dump : Bool) : List UInt8 → Option (Data n × Ctl)
  | [] => some (d, q.goto (.intrRelease dump))
  | c :: rest =>
    match key d.con c with
    | .ok o =>
      let dump := dump || o.procdump
      some ({ d with con := o.s },
        q.goto (if o.wake then .wakeAcquire (.consoleintr rest dump) else .intrKeys rest dump))
    | .error _ => none

/-- `consoleread` up to its end or its next `sleep`. -/
def runRead (d : Data n) (c : Fin n) (q : Ctl) (target m : Nat) (out : List UInt8) : Data n × Ctl :=
  match consoleread target m d.con out with
  | (con, _, _, .returns) => ({ d with con := con }, q.goto .consRelease)
  | (con, out, m, .sleeps) =>
    ({ d with con := con }, q.goto (if killed d.k c then .consRelease else .sleepAcquire (.consoleread target m out)))

/-- One row of `print_info`. -/
def infoRow (k : Kernel n) (i : Nat) : Point :=
  if h : i < NPROC then
    if (k.proc ⟨i, h⟩).state = .unused then .infoRow (i + 1) else .printAcquire (.printInfo (i + 1))
  else .ptRelease

/-- One row of `procdump`: a pc of a sleeping process, or the end of the line. -/
def dumpRow (k : Kernel n) (i : Nat) (x : Choice) : Point :=
  if h : i < NPROC then
    if (k.proc ⟨i, h⟩).state = .unused then .dumpRow (i + 1)
    else if (k.proc ⟨i, h⟩).state = .sleeping ∧ x = .pc then .printAcquire (.procdump i)
    else .printAcquire (.procdump (i + 1))
  else .ret

/-- Text goes to the screen. -/
def runPrint (d : Data n) (q : Ctl) (k : Printer) : Choice → Option (Data n × Ctl)
  | .put gs =>
    match gs.foldlM cgaputc d.con.pos with
    | .ok pos => some ({ d with con := { d.con with pos := pos } }, q.goto (.printRelease k))
    | .error _ => none
  | _ => none

/-- The code under another lock. -/
def otherRun (a : Nat) : Choice → Point
  | .sleep chan => .sleepAcquire (.other a chan)
  | .wakeup chan => .wakeAcquire (.other a chan)
  | _ => .otherRelease a

/-- The code at a point without a lock operation, run by CPU `c`. -/
def run [NeZero n] (d : Data n) (c : Fin n) (q : Ctl) (x : Choice) : Option (Data n × Ctl) :=
  match q.top with
  | .ret => runRet d c q x
  | .schedRun => (scheduler d.k c).map (d.resume c)
  | .allocScan f =>
    match allocScan d.k with
    | none => some (d, q.goto (.allocNone f))
    | some (p, k) => some (d.setK k, q.goto (.allocTicks f p))
  | .allocInit f p => some (d.setK (allocInit d.k p), q.goto (.allocTicksRelease f p))
  | .allocStack f p => runStack d q f p x
  | .copy f p => runCopy d c q f p x
  | .runRun f p => (makeRunnable d.k p).map fun k => (d.setK k, q.goto (.runRelease f))
  | .secRun y => runSection d c q y
  | .sleepRun w => (sleep d.k c (some w.chan)).map (d.switch c ⟨.sleep w, q.below⟩)
  | .wakeRun k => (wakeup1 (some k.chan) d.k).map fun k' => (d.setK k', q.goto (.wakeRelease k))
  | .timerTick => some (d.setK { d.k with ticks := d.k.ticks + 1 }, q.goto (.wakeAcquire .timer))
  | .timerSlice =>
    some (d.setK (timerSlice d.k c).1, q.goto (if (timerSlice d.k c).2 then .yieldAcquire else .ret))
  | .yieldRun => (yield d.k c).map (d.switch c ⟨.release, q.below⟩)
  | .sysSleepStart m => some (d, q.goto (.sysSleepLoop d.k.ticks m))
  | .sysSleepLoop t m =>
    some (d, q.goto (if sleepsOn d.k c t m then .sleepAcquire (.sysSleep t m) else .ticksRelease))
  | .printRun k => runPrint d q k x
  | .infoRow i => some (d, q.goto (infoRow d.k i))
  | .intrKeys keys dump => runKeys d q dump keys
  | .dumpRow i => some (d, q.goto (dumpRow d.k i x))
  | .readLoop target m out => some (runRead d c q target m out)
  | .otherRun a => some (d, q.goto (otherRun a x))
  | _ => none

/-! ## The machine -/

/-- The whole machine. -/
structure Sys (n : Nat) where
  d : Data n
  spin : State (Fin n) Lk Ctl

/-- A CPU executes a lock operation or the code up to the next one, or takes an interrupt. The
keyboard and the serial line interrupt CPU 0; `irq` is the interrupt of another device. -/
inductive SmpAct (n : Nat)
  | lock (c : Fin n)
  | run (c : Fin n) (x : Choice)
  | timer (c : Fin n)
  | kbd (keys : List UInt8)
  | irq (c : Fin n) (a : Nat)
  deriving DecidableEq, Repr

/-- An interrupt is taken when no handler runs, interrupts are on and no lock is held. -/
def interrupt (p : Point) (q : Ctl) : Option Ctl :=
  if h : q.below = none ∧ q.top.intena = true ∧ q.top.held = [] then
    some { top := p, below := some ⟨q.top, h.2.2⟩ }
  else none

/-- CPU `c` starts a handler. -/
def Sys.interrupt (s : Sys n) (c : Fin n) (p : Point) : Option (Sys n) :=
  (Smp.interrupt p (s.spin.pc c)).map fun q => { s with spin := s.spin.jump c q }

def smpStep [NeZero n] (s : Sys n) : SmpAct n → Option (Sys n)
  | .lock c => (s.spin.lock code c).map fun t => { s with spin := t }
  | .run c x => (run s.d c (s.spin.pc c) x).map fun r => { d := r.1, spin := s.spin.jump c r.2 }
  | .timer c => s.interrupt c (if c = 0 then .timerAcquire else .timerSlice)
  | .kbd keys => s.interrupt 0 (.intrAcquire keys)
  | .irq c a => s.interrupt c (.otherAcquire a)

/-- `main` on CPU 0 at `userinit`, the other CPUs in their schedulers. -/
def bootSys [NeZero n] (types : Fin n → CoreType) (pos : Nat) : Sys n where
  d := { k := bootKernel types, con := { pos := pos }, saved := fun _ => {} }
  spin := { owner := fun _ => none, pc := fun c => { top := if c = 0 then .allocAcquire .userinit else .schedAcquire } }

end Xv6.Smp
