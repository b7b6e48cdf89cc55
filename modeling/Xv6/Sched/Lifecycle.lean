/-
The life of a process without the run queues. `Life` is what the process table says of each slot, with
the progress of every `fork`; `fire` is the table's own step, one event for each thing that can happen
to a process (creation, start, dispatch, sleep, wakeup, kill, exit, reaping). Every step of the kernel
is such an event on the table it shows: `step_life` is the refinement the invariants over whole
histories of processes use.
-/
import Xv6.Sched.Step

namespace Xv6.Sched

open Base Function

variable {n : Nat} {k p : Slot} {W : Slot → Prop}

/-! ## The table -/

/-- What the table says of a process, its run-queue link and exit time apart. -/
@[ext] structure Entry where
  state : ProcState
  pid : Int
  parent : Option Slot
  chan : Option Chan
  killed : Bool
  ctime : UInt32
  sliceTicks : Int

/-- The processes of a kernel state. -/
@[ext] structure Life where
  entry : Slot → Entry
  fork : Slot → ForkPc
  nextpid : Int
  initproc : Option Slot
  boot : Option Slot
  ticks : UInt32

def Proc.entry (r : Proc) : Entry := ⟨r.state, r.pid, r.parent, r.chan, r.killed, r.ctime, r.sliceTicks⟩

/-- The table of a kernel state. -/
def life (s : Kernel n) : Life :=
  ⟨fun p => (s.proc p).entry, s.fork, s.nextpid, s.initproc, s.boot, s.ticks⟩

namespace Life

def mod (t : Life) (p : Slot) (f : Entry → Entry) : Life := { t with entry := update t.entry p (f (t.entry p)) }

def setFork (t : Life) (p : Slot) (pc : ForkPc) : Life := { t with fork := update t.fork p pc }

/-- The slot becomes an `EMBRYO` with a new pid. -/
def alloc (t : Life) (k : Slot) : Life :=
  { t.mod k fun e => { e with state := .embryo, pid := t.nextpid, ctime := t.ticks, sliceTicks := 0 } with
    nextpid := t.nextpid + 1 }

/-- The sleepers of `W` become `RUNNABLE`. -/
def wake (t : Life) (W : Slot → Prop) [DecidablePred W] : Life :=
  { t with entry := fun r =>
      if (t.entry r).state = .sleeping ∧ W r then { t.entry r with state := .runnable } else t.entry r }

/-- The processes the exit of `p` wakes if they sleep: those on its parent's channel, and those on the
channel of init if `p` leaves a zombie child. -/
def WokenByExit (t : Life) (p r : Slot) : Prop :=
  (t.entry r).chan = (t.entry p).parent.map .proc ∨
    ∃ x, (t.entry x).parent = some p ∧ (t.entry x).state = .zombie ∧ (t.entry r).chan = t.initproc.map .proc

instance (t : Life) (p : Slot) : DecidablePred (t.WokenByExit p) := fun _ => inferInstanceAs (Decidable (_ ∨ ∃ _, _))

/-- The children of `p` pass to init. -/
def orphan (t : Life) (p : Slot) : Life :=
  { t with entry := fun r =>
      { t.entry r with parent := if (t.entry r).parent = some p then t.initproc else (t.entry r).parent } }

def exited (t : Life) (p : Slot) :
    Life := ((t.wake (t.WokenByExit p)).orphan p).mod p fun e => { e with state := .zombie }

/-- Neither unused, embryonic nor a zombie. -/
def Live (t : Life) (p : Slot) : Prop :=
  (t.entry p).state = .sleeping ∨ (t.entry p).state = .runnable ∨ (t.entry p).state = .running

end Life

/-! ## Events -/

/-- What happens to a process: `p` acts, `k` is the slot acted on. -/
inductive Event
  | quiet
  | userinit (k : Slot)
  | start (k : Slot)
  | alloc (p k : Slot)
  | fail (p k : Slot)
  | copy (p k : Slot)
  | run (p k : Slot)
  | dispatch (p : Slot)
  | yield (p : Slot)
  | sleep (p : Slot) (chan : Chan)
  | doze (p : Slot)
  | wakeup (chan : Chan)
  | kill (k : Slot)
  | exit (p : Slot)
  | reap (p k : Slot)
  | childless (p : Slot)
  | tick
  | slice (p : Slot)

/-- The process is in a system call of its own, outside `fork`. -/
def Life.Calls (t : Life) (p : Slot) : Prop := (t.entry p).state = .running ∧ t.fork p = .out

instance (t : Life) (p : Slot) : Decidable (t.Calls p) := inferInstanceAs (Decidable (_ ∧ _))

/-- One event. `doze` is the sleep inside `wait`, `childless` its return of -1. -/
def fire (t : Life) : Event → Option Life
  | .quiet => some t
  | .userinit k =>
    if t.initproc = none ∧ (t.entry k).state = .unused then
      some { t.alloc k with initproc := some k, boot := some k }
    else none
  | .start k =>
    if t.boot = some k then some { t.mod k fun e => { e with state := .runnable } with boot := none } else none
  | .alloc p k =>
    if t.Calls p ∧ (t.entry k).state = .unused then some ((t.alloc k).setFork p (.allocated k)) else none
  | .fail p k =>
    if t.fork p = .allocated k then some ((t.setFork p .out).mod k fun e => { e with state := .unused }) else none
  | .copy p k =>
    if t.fork p = .allocated k then some ((t.mod k fun e => { e with parent := some p }).setFork p (.copied k))
    else none
  | .run p k =>
    if t.fork p = .copied k then some ((t.setFork p .out).mod k fun e => { e with state := .runnable }) else none
  | .dispatch p =>
    if (t.entry p).state = .runnable then
      some (t.mod p fun e => { e with sliceTicks := 0, state := .running, chan := none }) else none
  | .yield p => if (t.entry p).state = .running then some (t.mod p fun e => { e with state := .runnable }) else none
  | .sleep p chan =>
    if t.Calls p then some (t.mod p fun e => { e with chan := some chan, state := .sleeping }) else none
  | .doze p =>
    if t.Calls p ∧ ∀ k, ¬ ((t.entry k).parent = some p ∧ (t.entry k).state = .zombie) then
      some (t.mod p fun e => { e with chan := some (.proc p), state := .sleeping }) else none
  | .wakeup chan => some (t.wake fun r => (t.entry r).chan = some chan)
  | .kill k =>
    some (t.mod k fun e => { e with killed := true, state := if e.state = .sleeping then .runnable else e.state })
  | .exit p => if t.Calls p ∧ t.initproc ≠ some p then some (t.exited p) else none
  | .reap p k =>
    if t.Calls p ∧ (t.entry k).parent = some p ∧ (t.entry k).state = .zombie then
      some (t.mod k fun e => { e with pid := 0, parent := none, killed := false, state := .unused }) else none
  | .childless _ => some t
  | .tick => some { t with ticks := t.ticks + 1 }
  | .slice p =>
    if (t.entry p).state = .running then some (t.mod p fun e => { e with sliceTicks := e.sliceTicks + 1 }) else none

/-- The event of a section of `fork` on CPU `c`, after its `allocproc`. -/
def forkEvent (s : Kernel n) (c : Fin n) (e : Slot → Slot → Event) : Event :=
  match (s.cpus c).proc with
  | none => .quiet
  | some p => (s.fork p).np.elim .quiet (e p)

def waitEvent (s : Kernel n) (p : Slot) : Event :=
  match (List.finRange NPROC).find? fun k => (s.proc k).parent = some p ∧ (s.proc k).state = .zombie with
  | some k => .reap p k
  | none => if (∀ k, (s.proc k).parent ≠ some p) ∨ (s.proc p).killed = true then .childless p else .doze p

/-- The event a step of the kernel is. -/
def event [NeZero n] (s : Kernel n) : Act n → Event
  | .userinitAlloc => (allocproc s).1.elim .quiet .userinit
  | .userinitRun => s.boot.elim .quiet .start
  | .forkAlloc c => (s.cpus c).proc.elim .quiet fun p => (allocproc s).1.elim .quiet (.alloc p)
  | .forkFail c => forkEvent s c .fail
  | .forkCopy c => forkEvent s c .copy
  | .forkRun c => forkEvent s c .run
  | .scheduler c => ((scheduler s c).bind fun s' => (s'.cpus c).proc).elim .quiet .dispatch
  | .yield c => (s.cpus c).proc.elim .quiet .yield
  | .sleep c chan => (s.cpus c).proc.elim .quiet fun p => .sleep p chan
  | .wakeup chan => .wakeup chan
  | .kill _ pid => (killTarget s pid).elim .quiet .kill
  | .exit c => (s.cpus c).proc.elim .quiet .exit
  | .wait c => (s.cpus c).proc.elim .quiet (waitEvent s)
  | .tick => .tick
  | .slice c => (s.cpus c).proc.elim .quiet fun p => if (s.proc p).state = .running then .slice p else .quiet
  | .loadBalance _ | .startMeasure | .endMeasure => .quiet

/-! ## Refinement -/

variable {b : Bool} {s s' : Kernel n} {q : Fin n → List Slot} {c : Fin n}

theorem life_modProc {f : Proc → Proc} {g : Entry → Entry} (hf : (f (s.proc p)).entry = g (s.proc p).entry) :
    life (s.modProc p f) = (life s).mod p g := by
  apply Life.ext
  · funext r
    by_cases e : r = p
    · subst e; simp [life, Life.mod, hf]
    · simp [life, Life.mod, e]
  all_goals rfl

theorem Wakes.entry [DecidablePred W] (w : Wakes s s' W) (r : Slot) :
    (s'.proc r).entry = { ((life s).wake W).entry r with parent := (s'.proc r).parent } := by
  have ha := w.agree r
  by_cases hr : (s.proc r).state = .sleeping ∧ W r
  · have hst := w.woken r hr.1 hr.2
    simp only [life, Life.wake, Proc.entry, hr, and_self, if_true]
    rw [ha, hst]
  · have hst := w.kept r hr
    simp only [life, Life.wake, Proc.entry, hr, if_false]
    rw [ha, hst]

theorem Life.wake_parent (t : Life) (W : Slot → Prop) [DecidablePred W] (r : Slot) :
    ((t.wake W).entry r).parent = (t.entry r).parent := by
  unfold Life.wake
  simp only
  split <;> rfl

theorem Wakes.life [DecidablePred W] (w : Wakes s s' W) (hpar : SameParents s s') :
    Sched.life s' = (Sched.life s).wake W := by
  have hrest := w.rest
  apply Life.ext
  · funext r
    refine (w.entry r).trans ?_
    rw [hpar r]
    apply Entry.ext <;> try rfl
    exact (Life.wake_parent (Sched.life s) W r).symm
  all_goals
    rw [hrest]; rfl

theorem Wakes.life_orphan [DecidablePred W] (w : Wakes s s' W)
    (hpar : ∀ r, (s'.proc r).parent = if (s.proc r).parent = some p then s.initproc else (s.proc r).parent) :
    Sched.life s' = ((Sched.life s).wake W).orphan p := by
  have hrest := w.rest
  apply Life.ext
  · funext r
    refine (w.entry r).trans ?_
    rw [hpar r]
    simp only [Life.orphan, Life.wake_parent]
    rfl
  all_goals
    rw [hrest]; rfl

theorem Life.wake_false (t : Life) : t.wake (fun _ => False) = t := by
  apply Life.ext
  · funext r
    simp [Life.wake]
  all_goals rfl

theorem Wakes.life_eq (w : Wakes s s' fun _ => False) (hpar : SameParents s s') : Sched.life s' = Sched.life s :=
  (w.life hpar).trans (Life.wake_false _)

theorem life_allocproc (h : (allocproc s).1 = some k) : (s.proc k).state = .unused ∧
    life (allocproc s).2 = (life s).alloc k := by
  unfold allocproc at *
  split at h
  · cases h
  · rename_i hr
    cases h
    refine ⟨by simpa using List.find?_some hr, ?_⟩
    apply Life.ext
    · funext x
      by_cases e : x = k
      · subst e; simp [life, Life.alloc, Life.mod, Proc.entry]
      · simp [life, Life.alloc, Life.mod, e]
    all_goals rfl

theorem life_exitStart (s : Kernel n) (p : Slot) : life (exitStart s p) = life s := by
  obtain ⟨-, hf, hb, hi⟩ := exitStart_rest s p
  apply Life.ext
  · funext r
    simp only [life, exitStart_proc]
    exact s.modProc_apply p r Proc.entry rfl
  · exact hf
  · unfold exitStart; simp only; split <;> rfl
  · exact hi
  · exact hb
  · unfold exitStart; simp only; split <;> rfl

theorem calls_of_caller (h : Inv b s q) (hp : caller s c = some p) : (life s).Calls p := by
  obtain ⟨hc, hf⟩ := caller_eq_some hp; exact ⟨(h.running p).2 ⟨c, hc⟩, hf⟩

theorem life_scheduler (h : Inv b s q) (hc : (s.cpus c).proc = none) (hs : scheduler s c = some s') :
    fire (life s) ((s'.cpus c).proc.elim .quiet .dispatch) = some (life s') := by
  obtain ⟨s0, q0, s1, q1, e1, -, -, w0, p0, -, -, hpick⟩ :=
    h.scheduler (A := fun _ => False) (X := fun _ => False) (E := fun _ _ => False) hc
  rw [e1] at hs
  cases hs
  rcases hpick with ⟨rfl, -, -⟩ | ⟨p, s2, -, -, hr, -, w2, p2, rfl⟩
  · rw [(w0.cpu c).1, hc, w0.life_eq p0]; rfl
  · have hproc : ((dispatch s2 c p).cpus c).proc = some p := by simp [dispatch]
    have hlife : life s2 = life s := (w2.life_eq p2).trans (w0.life_eq p0)
    have hrun : ((life s).entry p).state = .runnable := (w0.state_eq p).symm.trans hr
    rw [hproc]
    simp only [Option.elim, fire, hrun, if_true]
    rw [← hlife]
    exact congrArg some (life_modProc (s := s2.modCpu c _) rfl).symm

theorem life_sleep (h : Inv b s q) (hp : (s.cpus c).proc = some p) {ch : Option Chan} (hs : sleep s c ch = some s') :
    life s' = (life s).mod p fun e => { e with chan := ch, state := .sleeping } := by
  obtain ⟨e, -, -⟩ := h.sleep hp (A := fun _ => False) (X := fun _ => False) (E := fun _ _ => True) ch trivial
  rw [e] at hs
  rw [← Option.some.inj hs]
  exact life_modProc (s := s) (p := p) (f := fun r => { r with chan := ch, state := .sleeping }) rfl

/-- A round of `wait`: the zombie it finds is freed; without one it sleeps or returns -1. -/
theorem life_wait (h : Inv b s q) (hp : caller s c = some p) {r : WaitRes} (hs : wait s c = some (r, s')) :
    fire (life s) (waitEvent s p) = some (life s') := by
  have hcall := calls_of_caller h hp
  have hp := (caller_eq_some hp).1
  unfold wait at hs
  unfold waitEvent
  simp only [hp, Option.bind_eq_bind, Option.bind_some] at hs
  cases hf : (List.finRange NPROC).find? fun k => (s.proc k).parent = some p ∧ (s.proc k).state = .zombie with
  | some k =>
    have hk : (s.proc k).parent = some p ∧ (s.proc k).state = .zombie := by simpa using List.find?_some hf
    rw [hf] at hs
    cases hs
    have hz : (life s).Calls p ∧ ((life s).entry k).parent = some p ∧ ((life s).entry k).state = .zombie := ⟨hcall, hk⟩
    simp only [fire, if_pos hz]
    exact congrArg some (life_modProc rfl).symm
  | none =>
    have hno : ∀ k, ¬ ((s.proc k).parent = some p ∧ (s.proc k).state = .zombie) := fun k =>
      by simpa using List.find?_eq_none.1 hf k (List.mem_finRange k)
    rw [hf] at hs
    simp only at hs ⊢
    split at hs
    · rename_i hc
      rw [if_pos hc]
      cases hs
      rfl
    · rename_i hc
      rw [if_neg hc]
      obtain ⟨s1, hs1, hs⟩ := Option.bind_eq_some_iff.1 hs
      cases hs
      have hd : (life s).Calls p ∧ ∀ k, ¬ (((life s).entry k).parent = some p ∧ ((life s).entry k).state = .zombie) :=
        ⟨hcall, hno⟩
      simp only [fire, if_pos hd, life_sleep h hp hs1]

theorem life_kill (s : Kernel n) (pid : Int) :
    fire (life s) ((killTarget s pid).elim .quiet .kill) = some (life (kill s pid).2) := by
  unfold kill
  cases killTarget s pid with
  | none => rfl
  | some k => dsimp only; exact congrArg some (life_modProc rfl).symm

section

variable [NeZero n]

theorem life_makeRunnable (h : Inv b s q) (he : (s.proc p).state = .embryo) (hb : ¬ Building s p)
    (hs : makeRunnable s p = some s') : life s' = (life s).mod p fun e => { e with state := .runnable } := by
  obtain ⟨s1, q1, e1, -⟩ := h.makeRunnable (p := p) (by simp [he]) (by simp [he]) hb
  obtain ⟨w, hpar⟩ := makeRunnable_wakes e1
  rw [e1] at hs
  cases hs
  have hset : life (s.setState p .runnable) = (life s).mod p fun e => { e with state := .runnable } := life_modProc rfl
  rw [← hset]
  exact w.life_eq fun r => (hpar r).trans (s.modProc_apply p r Proc.parent rfl).symm

theorem life_exit (h : Inv b s q) (hp : caller s c = some p) (hs : exit s c = some s') :
    fire (life s) (.exit p) = some (life s') := by
  have hcall := calls_of_caller h hp
  have hp := (caller_eq_some hp).1
  by_cases hi : s.initproc = some p
  · simp [Sched.exit, hp, hi] at hs
  · obtain ⟨s2, q', e, -, -, w, hpar, -⟩ := h.exit hp hi (E := fun _ _ => False)
    rw [e] at hs
    rw [← Option.some.inj hs]
    have hl : life s2 = ((life s).wake ((life s).WokenByExit p)).orphan p := by
      have hW : Wakes (exitStart s p) s2 ((life s).WokenByExit p) := w
      refine (hW.life_orphan fun r => ?_).trans (by rw [life_exitStart])
      rw [hpar r, (exitStart_fields s p r).2.1, (exitStart_rest s p).2.2.2]
    have hi' : (life s).initproc ≠ some p := hi
    simp only [fire, hcall, hi', ne_eq, not_false_eq_true, and_self, if_true, Life.exited, ← hl]
    have hz : life (s2.setState p .zombie) = (life s2).mod p fun e => { e with state := .zombie } := life_modProc rfl
    exact congrArg some hz.symm

/-- Every step of the kernel is an event on its table. -/
theorem step_life (h : Inv b s q) {a : Act n} (hs : step s a = some s') :
    fire (life s) (event s a) = some (life s') := by
  cases a with
  | userinitAlloc =>
    simp only [step] at hs
    split at hs
    · rename_i hi
      split at hs
      · rename_i k s1 e
        cases hs
        obtain ⟨hu, hl⟩ := life_allocproc (s := s) (k := k) (by rw [e])
        have hg : (life s).initproc = none ∧ ((life s).entry k).state = .unused := ⟨hi, hu⟩
        simp only [event, e, Option.elim, fire, if_pos hg, ← hl]
        rfl
      · cases hs
    · cases hs
  | userinitRun =>
    obtain ⟨k, hk, hs⟩ := Option.bind_eq_some_iff.1 hs
    obtain ⟨h1, hb, he⟩ := h.leaveBoot hk
    have hg : (life s).boot = some k := hk
    simp only [event, hk, Option.elim, fire, if_pos hg]
    exact congrArg some (life_makeRunnable h1 he hb hs).symm
  | forkAlloc c =>
    obtain ⟨p, hp, hs⟩ := Option.bind_eq_some_iff.1 hs
    have hcall := calls_of_caller h hp
    have hp := (caller_eq_some hp).1
    split at hs
    · rename_i k s1 e
      cases hs
      obtain ⟨hu, hl⟩ := life_allocproc (s := s) (k := k) (by rw [e])
      have hg : (life s).Calls p ∧ ((life s).entry k).state = .unused := ⟨hcall, hu⟩
      simp only [event, hp, e, Option.elim, fire, if_pos hg, ← hl]
      rfl
    · rename_i s1 e
      cases hs
      have hs1 := allocproc_none (s := s) (by rw [e])
      rw [e] at hs1
      simp only [event, hp, e, Option.elim, fire]
      rw [show s' = s from hs1]
  | forkFail c =>
    obtain ⟨p, hp, hs⟩ := Option.bind_eq_some_iff.1 hs
    split at hs
    · rename_i k e
      cases hs
      have hg : (life s).fork p = .allocated k := e
      simp only [event, forkEvent, hp, e, ForkPc.np, Option.elim, fire, if_pos hg]
      exact congrArg some (life_modProc (s := s.setFork p .out) rfl).symm
    · cases hs
  | forkCopy c =>
    obtain ⟨p, hp, hs⟩ := Option.bind_eq_some_iff.1 hs
    split at hs
    · rename_i k e
      cases hs
      have hg : (life s).fork p = .allocated k := e
      simp only [event, forkEvent, hp, e, ForkPc.np, Option.elim, fire, if_pos hg]
      have hm : life (s.modProc k fun r => { r with parent := some p }) =
          (life s).mod k fun e => { e with parent := some p } :=
        life_modProc rfl
      rw [← hm]
      rfl
    · cases hs
  | forkRun c =>
    obtain ⟨p, hp, hs⟩ := Option.bind_eq_some_iff.1 hs
    split at hs
    · rename_i k e
      obtain ⟨h1, hb, he⟩ := h.leaveFork (p := p) (k := k) (by rw [e]; rfl)
      have hg : (life s).fork p = .copied k := e
      simp only [event, forkEvent, hp, e, ForkPc.np, Option.elim, fire, if_pos hg]
      exact congrArg some (life_makeRunnable h1 he hb hs).symm
    · cases hs
  | scheduler c =>
    simp only [step] at hs
    split at hs
    · have := life_scheduler h ‹_› hs; simpa only [event, hs, Option.bind_some] using this
    · cases hs
  | yield c =>
    obtain ⟨p, hp, -⟩ := Option.bind_eq_some_iff.1 hs
    obtain ⟨s1, e1, -, -, w, hpar⟩ := h.yield hp (A := fun _ => False) (X := fun _ => False) (E := fun _ _ => False)
    rw [step, e1] at hs
    rw [← Option.some.inj hs]
    have hset : life (s.setState p .runnable) = (life s).mod p fun e => { e with state := .runnable } :=
      life_modProc rfl
    have hg : ((life s).entry p).state = .running := (h.running p).2 ⟨c, hp⟩
    simp only [event, hp, Option.elim, fire, if_pos hg, ← hset]
    exact congrArg some (w.life_eq hpar).symm
  | sleep c chan =>
    obtain ⟨p, hp, hs⟩ := Option.bind_eq_some_iff.1 hs
    have hcall := calls_of_caller h hp
    have hp := (caller_eq_some hp).1
    simp only [event, hp, Option.elim, fire, if_pos hcall, life_sleep h hp hs]
  | wakeup chan =>
    obtain ⟨s1, q1, e1, -⟩ := h.wakeup1 (some chan)
    obtain ⟨w, hpar⟩ := wakeup1_wakes e1
    rw [step, e1] at hs
    cases hs
    exact congrArg some (w.life hpar).symm
  | kill c pid =>
    obtain ⟨p, -, hs⟩ := Option.bind_eq_some_iff.1 hs
    cases hs
    exact life_kill s pid
  | exit c =>
    obtain ⟨p, hp, hs⟩ := Option.bind_eq_some_iff.1 hs
    simp only [event, (caller_eq_some hp).1, Option.elim]
    exact life_exit h hp hs
  | wait c =>
    obtain ⟨p, hp, hs⟩ := Option.bind_eq_some_iff.1 hs
    obtain ⟨⟨r, s1⟩, hw, e⟩ := Option.map_eq_some_iff.1 hs
    cases e
    simp only [event, (caller_eq_some hp).1, Option.elim]
    exact life_wait h hp hw
  | loadBalance c =>
    obtain ⟨s1, q1, e1, -⟩ := h.loadBalance (A := fun _ => False) (X := fun _ => False) (E := fun _ _ => False) c
    obtain ⟨w, hpar⟩ := loadBalance_wakes e1
    rw [step, e1] at hs
    cases hs
    exact congrArg some (w.life_eq hpar).symm
  | tick => cases hs; rfl
  | slice c =>
    cases hs
    unfold sliceTick
    cases hp : (s.cpus c).proc with
    | none => simp only [event, hp, Option.elim, fire]
    | some p =>
      simp only [event, hp, Option.elim]
      split
      · rename_i hr
        have hg : ((life s).entry p).state = .running := hr
        simp only [fire, if_pos hg]
        exact congrArg some (life_modProc rfl).symm
      · rfl
  | startMeasure => cases hs; rfl
  | endMeasure =>
    cases hs
    unfold endMeasure
    split <;> rfl

end

/-! ## States -/

/-- The state stays, or takes one of the arrows of the life of a process. -/
def Follows : ProcState → ProcState → Prop
  | .unused, .embryo | .embryo, .unused | .embryo, .runnable | .runnable, .running | .running, .runnable
  | .running, .sleeping | .running, .zombie | .sleeping, .runnable | .zombie, .unused => True
  | st, st' => st = st'

@[simp] theorem Follows.refl (st : ProcState) : Follows st st := by cases st <;> rfl

section

variable {t t' : Life}

theorem follows_update {u : Life} {e : Entry} (hu : u.entry = update t.entry k e)
    (h : Follows (t.entry k).state e.state) (p : Slot) : Follows (t.entry p).state (u.entry p).state := by
  by_cases hp : p = k
  · simpa [hu, hp] using h
  · simp [hu, hp]

theorem Life.wake_follows (W : Slot → Prop) [DecidablePred W] (p : Slot) :
    Follows (t.entry p).state ((t.wake W).entry p).state := by
  unfold Life.wake
  dsimp only
  split
  · next h => simp [h.1, Follows]
  · exact .refl _

theorem fire_follows (hb : ∀ k, (t.boot = some k ∨ ∃ p, (t.fork p).np = some k) → (t.entry k).state = .embryo)
    {e : Event} (hs : fire t e = some t') (p : Slot) : Follows (t.entry p).state (t'.entry p).state := by
  cases e with
  | quiet | childless _ | tick => cases hs; exact .refl _
  | wakeup _ => cases hs; exact Life.wake_follows _ p
  | kill k =>
    cases hs
    refine follows_update rfl ?_ p
    dsimp only
    split
    · next h => simp [h, Follows]
    · exact .refl _
  | exit k =>
    obtain ⟨⟨hk, -⟩, ⟨⟩⟩ := Option.ite_none_right_eq_some.1 hs
    by_cases hp : p = k
    · simp [hp, hk.1, Life.exited, Life.mod, Follows]
    · simpa [hp, Life.exited, Life.mod, Life.orphan] using Life.wake_follows (t.WokenByExit k) p
  | fail r k | run r k =>
    obtain ⟨hr, ⟨⟩⟩ := Option.ite_none_right_eq_some.1 hs
    have hk := hb k (.inr ⟨r, by rw [hr]; rfl⟩)
    exact follows_update rfl (by simp [hk, Follows]) p
  | start k =>
    obtain ⟨hk, ⟨⟩⟩ := Option.ite_none_right_eq_some.1 hs
    exact follows_update rfl (by simp [hb k (.inl hk), Follows]) p
  | dispatch k | yield k | sleep k _ | doze k | userinit k | alloc _ k | reap _ k | copy _ k | slice k =>
    obtain ⟨hk, ⟨⟩⟩ := Option.ite_none_right_eq_some.1 hs
    exact follows_update rfl (by simp_all [Life.Calls, Follows]) p

end

/-- In every state reached, every step of every CPU takes each process along its diagram. -/
theorem states_follow [NeZero n] {types : Fin n → CoreType} {s s' : Kernel n} {a : Act n}
    (hr : Reach (· = bootKernel types) step (fun _ _ => True) s) (hs : step s a = some s') (p : Slot) :
    Follows (s.proc p).state (s'.proc p).state := by
  obtain ⟨q, h⟩ := inv_reach (b := false) nofun hr
  exact fire_follows (t := life s) h.embryo (step_life h hs) p

/-- On CPU `c` init forks and waits, and the child runs. -/
def childRun (c : Fin n) : List (Act n) :=
  [.userinitAlloc, .userinitRun, .scheduler c, .forkAlloc c, .forkCopy c, .forkRun c, .wait c, .scheduler c]

/-- The child exits, and that wakes init. -/
theorem states_follow_exit :
    ∃ s s' : Kernel 1, Reachable (· = bootKernel mpmainTypes) step s ∧ step s (.exit 0) = some s' ∧
    (s.proc 1).state = .running ∧ (s'.proc 1).state = .zombie ∧ (s.proc 0).state = .sleeping ∧
    (s'.proc 0).state = .runnable ∧ ∀ p, Follows (s.proc p).state (s'.proc p).state := by
  have hrun : (runActs step (bootKernel mpmainTypes) (childRun (0 : Fin 1))).any
      (fun s => (s.proc 1).state = .running && (s.proc 0).state = .sleeping &&
        (step s (.exit 0)).any fun s' => (s'.proc 1).state = .zombie && (s'.proc 0).state = .runnable) = true := by
    decide +kernel
  obtain ⟨s, hr, hs⟩ := exists_reachable_of_run (· = bootKernel mpmainTypes) rfl _ _ hrun
  simp only [Bool.and_eq_true, decide_eq_true_eq, Option.any_eq_true] at hs
  obtain ⟨⟨h1, h0⟩, s', hs', h1', h0'⟩ := hs
  exact ⟨s, s', hr, hs', h1, h1', h0, h0', states_follow hr hs'⟩

end Xv6.Sched
