/-
The scheduling step relation: every section of `proc.c` that runs under `ptable.lock`, taken in any
order by any CPU, and the parts of `fork` between its two sections. The run queues represent lists
of `RUNNABLE` processes in every reachable state, so `dequeue` never fails. `kill` is the one
operation that makes a process `RUNNABLE` without queueing it: in the runs in which it never meets
a sleeping target no runnable process is lost, and a sleeping target is lost at once.
-/
import Xv6.Base.Run
import Xv6.Sched.Moves

namespace Xv6.Sched

open Base

variable {n : Nat}

/-! ## Steps -/

/-- The steps. `userinit` and `fork` are cut where they drop the lock; `sleep` and `wakeup` stand
for every caller in the kernel. -/
inductive Act (n : Nat)
  | userinitAlloc
  | userinitRun
  | forkAlloc (c : Fin n)
  | forkFail (c : Fin n)
  | forkCopy (c : Fin n)
  | forkRun (c : Fin n)
  | scheduler (c : Fin n)
  | yield (c : Fin n)
  | sleep (c : Fin n) (chan : Chan)
  | wakeup (chan : Chan)
  | kill (c : Fin n) (pid : Int)
  | exit (c : Fin n)
  | wait (c : Fin n)
  | loadBalance (c : Fin n)
  | tick
  | slice (c : Fin n)
  | startMeasure
  | endMeasure
  deriving DecidableEq, Repr

/-- The process running on `c`, if it is free to make a system call. -/
def caller (s : Kernel n) (c : Fin n) : Option Slot := (s.cpus c).proc.filter fun p => s.fork p = .out

def step [NeZero n] (s : Kernel n) : Act n → Option (Kernel n)
  | .userinitAlloc =>
    if s.initproc = none then
      match allocproc s with
      | (some p, s) => some { s with initproc := some p, boot := some p }
      | (none, _) => none
    else none
  | .userinitRun => s.boot.bind fun p => makeRunnable { s with boot := none } p
  | .forkAlloc c =>
    (caller s c).bind fun p =>
      match allocproc s with
      | (some np, s) => some (s.setFork p (.allocated np))
      | (none, s) => some s  -- fork returns -1
  | .forkFail c =>
    -- no memory for the kernel stack or the page table
    (s.cpus c).proc.bind fun p =>
      match s.fork p with
      | .allocated np => some ((s.setFork p .out).setState np .unused)
      | _ => none
  | .forkCopy c =>
    (s.cpus c).proc.bind fun p =>
      match s.fork p with
      | .allocated np => some ((s.modProc np fun q => { q with parent := some p }).setFork p (.copied np))
      | _ => none
  | .forkRun c =>
    (s.cpus c).proc.bind fun p =>
      match s.fork p with
      | .copied np => makeRunnable (s.setFork p .out) np
      | _ => none
  | .scheduler c => if (s.cpus c).proc = none then scheduler s c else none
  | .yield c => yield s c
  | .sleep c chan => (caller s c).bind fun _ => sleep s c (some chan)
  | .wakeup chan => wakeup1 (some chan) s
  | .kill c pid => (caller s c).bind fun _ => some (kill s pid).2
  | .exit c => (caller s c).bind fun _ => exit s c
  | .wait c => (caller s c).bind fun _ => (wait s c).map Prod.snd
  | .loadBalance c => loadBalance s c
  | .tick => some { s with ticks := s.ticks + 1 }
  | .slice c => some (sliceTick s c)
  | .startMeasure => some (startMeasure s)
  | .endMeasure => some (endMeasure s).2

/-- The process is a member of the `runq` list of CPU `c`. -/
def OnQueue (s : Kernel n) (c : Fin n) (p : Slot) : Prop := ∃ l, Chain s.next (s.cpus c).runq l ∧ p ∈ l

def KillsNoSleeper (s : Kernel n) (a : Act n) : Prop :=
  ∀ c pid k, a = .kill c pid → killTarget s pid = some k → (s.proc k).state ≠ .sleeping

/-- The processes a step makes run again. -/
def Woken (s : Kernel n) : Act n → Slot → Prop
  | .userinitRun, r => s.boot = some r
  | .forkRun c, r => ∃ p, (s.cpus c).proc = some p ∧ s.fork p = .copied r
  | .wakeup chan, r => (s.proc r).state = .sleeping ∧ (s.proc r).chan = some chan
  | .exit c, r => (s.proc r).state = .sleeping ∧ ∃ p, (s.cpus c).proc = some p ∧ ExitWakes s p r
  | _, _ => False

/-- The process a step ends. -/
def Exited (s : Kernel n) : Act n → Slot → Prop
  | .exit c, r => (s.cpus c).proc = some r
  | _, _ => False

/-- The process a step puts to sleep, with its channel. -/
def SleepsOn (s : Kernel n) : Act n → Slot → Option Chan → Prop
  | .sleep c chan, r, ch => (s.cpus c).proc = some r ∧ ch = some chan
  | .wait c, r, ch => (s.cpus c).proc = some r ∧ ch = some (.proc r)
  | _, _, _ => False

/-! ## The invariant along a run -/

variable {b : Bool} {s s' : Kernel n} {q : Fin n → List Slot} {p : Slot}

theorem caller_eq_some {c : Fin n} (h : caller s c = some p) : (s.cpus c).proc = some p ∧ s.fork p = .out := by
  simpa [caller] using h

theorem inv_boot (b : Bool) (types : Fin n → CoreType) : Inv b (bootKernel types) fun _ => [] := by
  refine ⟨⟨fun _ => rfl, by simp, fun _ => rfl⟩, ?_, ?_, ?_, ?_, ?_, ?_, ?_⟩
  all_goals simp [bootKernel, Listed, Building, ForkPc.np]

theorem listed_iff (h : QInv s q) (p : Slot) : Listed q p ↔ ∃ c, OnQueue s c p := by
  constructor
  · rintro ⟨c, hc⟩; exact ⟨c, q c, h.chain c, hc⟩
  · rintro ⟨c, l, hl, hp⟩; rw [hl.unique (h.chain c)] at hp; exact ⟨c, hp⟩

theorem Inv.building_np (h : Inv b s q) {k : Slot} (hk : (s.fork p).np = some k) :
    (s.proc k).state = .embryo ∧ s.boot ≠ some k ∧ ∀ r ≠ p, (s.fork r).np ≠ some k :=
  ⟨h.embryo k (.inr ⟨p, hk⟩), h.buildBoot p k hk, fun r hr hrk => hr (h.buildOne r p k hrk hk)⟩

theorem Inv.leaveFork (h : Inv b s q) {k : Slot} (hk : (s.fork p).np = some k) :
    Inv b (s.setFork p .out) q ∧ ¬ Building (s.setFork p .out) k ∧ ((s.setFork p .out).proc k).state = .embryo := by
  obtain ⟨he, hb, ho⟩ := h.building_np hk
  refine ⟨h.setFork (by simp [ForkPc.np]), ?_, he⟩
  rintro (hk' | ⟨r, hr⟩)
  · exact hb hk'
  · by_cases e : r = p
    · subst e; simp [Kernel.setFork, ForkPc.np] at hr
    · exact ho r e (by simpa [Kernel.setFork, e] using hr)

theorem Inv.leaveBoot (h : Inv b s q) {k : Slot} (hk : s.boot = some k) :
    Inv b { s with boot := none } q ∧ ¬ Building { s with boot := none } k ∧ (s.proc k).state = .embryo := by
  refine ⟨h.setBoot nofun, ?_, h.embryo k (.inl hk)⟩
  rintro (hk' | ⟨r, hr⟩)
  · cases hk'
  · exact h.buildBoot r k hr hk

section

variable [NeZero n]

theorem Inv.startEmbryo (h : Inv b s q) {p : Slot} (he : (s.proc p).state = .embryo) (hb : ¬ Building s p)
    {A X : Slot → Prop} {E : Slot → Option Chan → Prop} (hA : A p) :
    ∃ s' q', Sched.makeRunnable s p = some s' ∧ Inv b s' q' ∧ Frame s q s' q' A X E ∧ Moves s q s' q' ∧
      ∀ d, (s'.cpus d).coreType = (s.cpus d).coreType := by
  obtain ⟨s', q', e, hI, hl⟩ := h.makeRunnable (p := p) (by simp [he]) (by simp [he]) hb
  obtain ⟨w, -⟩ := makeRunnable_wakes e
  have hset : Frame s q (s.setState p .runnable) q A X fun _ _ => False :=
    Frame.modProc_dead (by simp [Alive, he]) (by simp) (by simp) rfl
  refine ⟨s', q', e, hI, hset.trans (w.frame fun r hr => ?_), .push (hl.mono fun _ _ => trivial) fun d =>
    .inl (w.cpu d).1, fun d => (w.cpu d).2⟩
  · rcases hl.listed hr with hr | rfl
    · exact .inl (.inl hr)
    · exact .inr hA

/-- What a step does: it keeps the invariant, with `b = true` if it kills no sleeper, it stays within its
frame, it moves processes as `Moves` says, and no CPU changes its type. -/
theorem step_spec (h : Inv b s q) {a : Act n} (hok : b = true → KillsNoSleeper s a) (hs : step s a = some s') :
    ∃ q', Inv b s' q' ∧ Frame s q s' q' (Woken s a) (Exited s a) (SleepsOn s a) ∧ Moves s q s' q' ∧
      ∀ d, (s'.cpus d).coreType = (s.cpus d).coreType := by
  cases a with
  | userinitAlloc =>
    simp only [step] at hs
    split at hs
    · split at hs
      · rename_i p s1 e
        cases hs
        obtain ⟨h1, he, hb, f⟩ := h.allocproc (p := p) (by rw [e])
        have hcpu := allocproc_cpus s
        rw [e] at h1 he hb f hcpu
        have h2 : Inv b { s1 with boot := some p } q := h1.setBoot fun k hk => by
          cases hk; exact ⟨he, fun r hr => hb (.inr ⟨r, hr⟩)⟩
        exact ⟨q, h2.congr rfl rfl rfl rfl, f.congr rfl, .still fun d => .inl (by rw [hcpu]), fun d => by rw [hcpu]⟩
      · cases hs
    · cases hs
  | userinitRun =>
    obtain ⟨p, hp, hs⟩ := Option.bind_eq_some_iff.1 hs
    obtain ⟨h1, hb, he⟩ := h.leaveBoot hp
    obtain ⟨s1, q1, e1, hI, f, m, ht⟩ := h1.startEmbryo (A := Woken s .userinitRun) he hb hp
    rw [e1] at hs; cases hs
    exact ⟨q1, hI, ⟨f.active, f.alive, f.chan, f.sleeping⟩, m.congr rfl rfl, ht⟩
  | forkAlloc c =>
    obtain ⟨p, -, hs⟩ := Option.bind_eq_some_iff.1 hs
    split at hs
    · rename_i np s1 e
      cases hs
      obtain ⟨h1, he, hb, f⟩ := h.allocproc (p := np) (by rw [e])
      have hcpu := allocproc_cpus s
      rw [e] at h1 he hb f hcpu
      refine ⟨q, h1.setFork fun k hk => ?_, f.congr rfl, .still fun d => .inl ?_, fun d => ?_⟩
      · cases hk; exact ⟨he, fun hk => hb (.inl hk), fun r _ hr => hb (.inr ⟨r, hr⟩)⟩
      · exact congrArg (fun k => (k d).proc) hcpu
      · exact congrArg (fun k => (k d).coreType) hcpu
    · rename_i s1 e
      cases hs
      have := allocproc_none (s := s) (by rw [e])
      rw [e] at this
      subst this
      exact ⟨q, h, .refl _ q, .still fun _ => .inl rfl, fun _ => rfl⟩
  | forkFail c =>
    obtain ⟨p, -, hs⟩ := Option.bind_eq_some_iff.1 hs
    split at hs
    · rename_i np e
      cases hs
      obtain ⟨h1, hb, he⟩ := h.leaveFork (p := p) (k := np) (by rw [e]; rfl)
      refine ⟨q, h1.modProc_idle rfl (by simp [he]) (by simp [he]) hb (by simp) (by simp), ?_, .still fun _ => .inl rfl,
        fun _ => rfl⟩
      have f : Frame s q (s.setFork p .out) q (Woken s (.forkFail c)) (Exited s (.forkFail c)) fun _ _ => False :=
        (Frame.refl s q).congr rfl
      exact f.trans (Frame.modProc_dead (by simp [Alive, he]) (by simp) (by simp) rfl)
    · cases hs
  | forkCopy c =>
    obtain ⟨p, -, hs⟩ := Option.bind_eq_some_iff.1 hs
    split at hs
    · rename_i np e
      cases hs
      have h1 : Inv b (s.modProc np fun r => { r with parent := some p }) q := h.modProc_data rfl rfl
      refine ⟨q, h1.setFork fun k hk => ?_,
        (Frame.modProc_data (p := np) (f := fun r => { r with parent := some p }) rfl rfl).congr rfl,
        .still fun _ => .inl rfl, fun _ => rfl⟩
      cases hk
      exact h1.building_np (p := p) (by rw [show (s.modProc np _).fork p = _ from e]; rfl)
    · cases hs
  | forkRun c =>
    obtain ⟨p, hp, hs⟩ := Option.bind_eq_some_iff.1 hs
    split at hs
    · rename_i np e
      obtain ⟨h1, hb, he⟩ := h.leaveFork (p := p) (k := np) (by rw [e]; rfl)
      obtain ⟨s1, q1, e1, hI, f, m, ht⟩ := h1.startEmbryo (A := Woken s (.forkRun c)) he hb ⟨p, hp, e⟩
      rw [e1] at hs; cases hs
      exact ⟨q1, hI, ⟨f.active, f.alive, f.chan, f.sleeping⟩, m.congr rfl rfl, ht⟩
    · cases hs
  | scheduler c =>
    simp only [step] at hs
    split at hs
    · rename_i hc
      obtain ⟨s0, q0, s1, q1, e1, hI, f, w, -, hbal, h0, hpick⟩ := h.scheduler hc
      rw [e1] at hs; cases hs
      exact ⟨q1, hI, f, hpick.moves h0 hc w hbal⟩
    · cases hs
  | yield c =>
    obtain ⟨p, hp, -⟩ := Option.bind_eq_some_iff.1 hs
    obtain ⟨s1, e1, hI, f, w, -⟩ := h.yield hp
    rw [step, e1] at hs
    rw [← Option.some.inj hs]
    refine ⟨_, hI, f, .yield c p hp rfl fun d => ?_, fun d => (idle_cpu s1 c d).2.trans (w.cpu d).2⟩
    rw [(idle_cpu s1 c d).1, (w.cpu d).1]
    rfl
  | sleep c chan =>
    obtain ⟨p, hp, hs⟩ := Option.bind_eq_some_iff.1 hs
    have hp := (caller_eq_some hp).1
    obtain ⟨e1, hI, f⟩ := h.sleep hp (E := SleepsOn s (.sleep c chan)) (some chan) ⟨hp, rfl⟩
    rw [e1] at hs
    rw [← Option.some.inj hs]
    exact ⟨q, hI, f, moves_idle (fun _ => ⟨rfl, rfl⟩) (.refl s q _)⟩
  | wakeup chan =>
    obtain ⟨s1, q1, e1, hI, hl⟩ := h.wakeup1 (some chan)
    obtain ⟨w, -⟩ := wakeup1_wakes e1
    rw [step, e1] at hs; cases hs
    refine ⟨q1, hI, w.frame fun r hr => ?_, .push (hl.mono fun _ _ => trivial) fun d => .inl (w.cpu d).1,
      fun d => (w.cpu d).2⟩
    rcases hl.listed hr with hr | hr
    · exact .inl (.inl hr)
    · exact .inr hr
  | kill c pid =>
    obtain ⟨p, -, hs⟩ := Option.bind_eq_some_iff.1 hs
    cases hs
    obtain ⟨hI, f⟩ := h.kill pid fun hb k => hok hb c pid k rfl
    have hcpu := kill_cpus s pid
    exact ⟨q, hI, f, .still fun d => .inl (by rw [hcpu]), fun d => by rw [hcpu]⟩
  | exit c =>
    obtain ⟨p, hp, hs⟩ := Option.bind_eq_some_iff.1 hs
    have hp := (caller_eq_some hp).1
    by_cases hi : s.initproc = some p
    · simp [Sched.exit, hp, hi] at hs
    · obtain ⟨s1, q1, e1, hI, f, w, -, hl⟩ := h.exit hp hi
      rw [e1] at hs
      rw [← Option.some.inj hs]
      refine ⟨q1, hI, ⟨fun r hr => ?_, fun r hr => ?_, f.chan, f.sleeping⟩,
        moves_idle (fun d => ?_) (hl.mono fun _ _ => trivial)⟩
      · exact (f.active r hr).imp_right fun h => ⟨h.1, p, hp, h.2⟩
      · exact (f.alive r hr).imp_right fun e => by rw [e]; exact hp
      · have hw := w.cpu d; rw [(exitStart_rest s p).1] at hw; exact hw
  | wait c =>
    obtain ⟨p, hp, hs⟩ := Option.bind_eq_some_iff.1 hs
    have hp := (caller_eq_some hp).1
    obtain ⟨r, s1, e1, hI, f⟩ := h.wait hp (E := SleepsOn s (.wait c)) ⟨hp, rfl⟩
    rw [e1] at hs
    rw [← show s1 = s' from Option.some.inj hs]
    exact ⟨q, hI, f, h.wait_moves hp e1⟩
  | loadBalance c =>
    obtain ⟨s1, q1, e1, hI, f, hbal⟩ := h.loadBalance c
    obtain ⟨w, -⟩ := loadBalance_wakes e1
    rw [step, e1] at hs; cases hs
    exact ⟨q1, hI, f, .balance c hbal fun d => (w.cpu d).1, fun d => (w.cpu d).2⟩
  | tick => cases hs; exact ⟨q, h.congr rfl rfl rfl rfl, (Frame.refl s q).congr rfl,
    .still fun _ => .inl rfl, fun _ => rfl⟩
  | slice c =>
    cases hs
    unfold sliceTick
    split
    · split
      · exact ⟨q, h.modProc_data rfl rfl, Frame.modProc_data rfl rfl, .still fun _ => .inl rfl, fun _ => rfl⟩
      · exact ⟨q, h, .refl s q, .still fun _ => .inl rfl, fun _ => rfl⟩
    · exact ⟨q, h, .refl s q, .still fun _ => .inl rfl, fun _ => rfl⟩
  | startMeasure =>
    cases hs; exact ⟨q, h.congr rfl rfl rfl rfl, (Frame.refl s q).congr rfl, .still fun _ => .inl rfl, fun _ => rfl⟩
  | endMeasure =>
    cases hs
    unfold endMeasure
    split
    · exact ⟨q, h.congr rfl rfl rfl rfl, (Frame.refl s q).congr rfl, .still fun _ => .inl rfl, fun _ => rfl⟩
    · exact ⟨q, h, .refl s q, .still fun _ => .inl rfl, fun _ => rfl⟩

/-- The invariant holds in every state of a run; with `b = true`, of one that kills no sleeper. -/
theorem inv_reach {types : Fin n → CoreType} {ok : Kernel n → Act n → Prop}
    (hok : b = true → ∀ s a, ok s a → KillsNoSleeper s a) (hr : Reach (· = bootKernel types) step ok s) :
    ∃ q, Inv b s q := by
  refine Reach.inv (P := fun s => ∃ q, Inv b s q) ?_ ?_ hr
  · rintro s rfl; exact ⟨_, inv_boot b types⟩
  · rintro s a s' ⟨q, h⟩ ha hs
    obtain ⟨q', hI, -⟩ := step_spec h (fun hb => hok hb s a ha) hs
    exact ⟨q', hI⟩

end

/-! ## The run queues represent lists -/

/-- The run-queue representation in every reachable state: the links give each CPU a finite list
without repetition, no process is on two, only `RUNNABLE` processes are listed, `queue_count` is the
length, the `RUNNING` processes are the current ones of exactly one CPU; so the loops over the
queues end and `dequeue` fails neither in `scheduler` nor in `load_balance`. -/
theorem runq_representation [NeZero n] (types : Fin n → CoreType) (s : Kernel n)
    (hr : Reachable (· = bootKernel types) step s) :
    ∃ q : Fin n → List Slot,
      (∀ c, Chain s.next (s.cpus c).runq (q c) ∧ (q c).Nodup ∧ (s.cpus c).queueCount = (q c).length) ∧
      (∀ c d p, p ∈ q c → p ∈ q d → c = d) ∧
      (∀ c, ∀ p ∈ q c, (s.proc p).state = .runnable) ∧
      (∀ p, (s.proc p).state = .running ↔ ∃! c, (s.cpus c).proc = some p) ∧
      (∀ p, (s.proc p).state ≠ .runnable → ∀ c, p ∉ q c) ∧
      (∀ c, (∃ o, select s c = some o) ∧ ∃ o, victim s c = some o) ∧
      (∀ c p, select s c = some (some p) → ∃ s', dequeue s c p = some (0, s')) ∧
      (∀ c p, victim s c = some (some p) → ∃ s', dequeue s c p = some (0, s')) := by
  obtain ⟨q, h⟩ := inv_reach (b := false) nofun hr
  refine ⟨q, fun c => ⟨h.queues.chain c, (h.queues.chain c).nodup, h.queues.count c⟩, h.queues.disj,
    fun c p hp => h.listed p ⟨c, hp⟩, fun p => ?_, fun p hp c hc => h.not_listed hp ⟨c, hc⟩, fun c => ?_,
    fun c p hs => ?_, fun c p hv => ?_⟩
  · rw [h.running]
    exact ⟨fun ⟨c, hc⟩ => ⟨c, hc, fun d hd => h.runOne d c p hd hc⟩, fun ⟨c, hc, _⟩ => ⟨c, hc⟩⟩
  · obtain ⟨o, ho, -⟩ := select_spec h.queues c; exact ⟨⟨o, ho⟩, _, find_victim h.queues c⟩
  · obtain ⟨o, ho, hsel, -⟩ := select_spec h.queues c
    rw [ho] at hs
    obtain ⟨s', e, -⟩ := dequeue_spec h.queues (hsel p (Option.some.inj hs)).1
    exact ⟨s', e⟩
  · rw [find_victim h.queues] at hv
    obtain ⟨s', e, -⟩ := dequeue_spec h.queues (List.mem_of_find?_eq_some (Option.some.inj hv))
    exact ⟨s', e⟩

/-- The state after `userinit` on two CPUs: the queue of CPU 0 holds the first process. -/
theorem runq_representation_userinit :
    ∃ s : Kernel 2, (s.proc 0).state = .runnable ∧ (s.cpus 0).runq = some 0 ∧
      ∃ q : Fin 2 → List Slot, ∀ c, Chain s.next (s.cpus c).runq (q c) := by
  have hrun : (runActs step (bootKernel mpmainTypes) [.userinitAlloc, .userinitRun]).any
      (fun s : Kernel 2 => (s.proc 0).state = .runnable ∧ (s.cpus 0).runq = some 0) = true := by decide +kernel
  obtain ⟨s, hr, hs⟩ := exists_reachable_of_run (· = bootKernel mpmainTypes) rfl _ _ hrun
  obtain ⟨q, hq, -⟩ := runq_representation mpmainTypes s hr
  simp only [Bool.decide_and, Bool.and_eq_true, decide_eq_true_eq] at hs
  exact ⟨s, hs.1, hs.2, q, fun c => (hq c).1⟩

/-! ## Lost processes -/

/-- In a run that kills no sleeping process every `RUNNABLE` process is on the queue of some CPU; and
from any reachable state the `kill` of a sleeping process loses it. -/
theorem runnable_on_queue [NeZero n] (types : Fin n → CoreType) :
    (∀ s, Reach (· = bootKernel types) step KillsNoSleeper s →
      ∀ p, (s.proc p).state = .runnable → ∃ c, OnQueue s c p) ∧
    (∀ s, Reachable (· = bootKernel types) step s → ∀ pid k, killTarget s pid = some k →
      (s.proc k).state = .sleeping → ((kill s pid).2.proc k).state = .runnable ∧
      ∀ c, ¬ OnQueue (kill s pid).2 c k) := by
  constructor
  · intro s hr p hp
    obtain ⟨q, h⟩ := inv_reach (b := true) (fun _ _ _ h => h) hr
    exact (listed_iff h.queues p).1 (h.complete rfl p hp)
  · intro s hr pid k hk hsl
    obtain ⟨q, h⟩ := inv_reach (b := false) nofun hr
    have h' := (h.kill (A := fun _ => False) (X := fun _ => False) (E := fun _ _ => False) pid nofun).1
    refine ⟨by simp [kill, hk, hsl], fun c hc => ?_⟩
    exact h.not_listed (by simp [hsl]) ((listed_iff h'.queues k).2 ⟨c, hc⟩)

/-- The state after `userinit` on one CPU, reached without a `kill`. -/
theorem runnable_on_queue_userinit :
    ∃ s : Kernel 1, Reach (· = bootKernel mpmainTypes) step KillsNoSleeper s ∧ (s.proc 0).state = .runnable ∧
      ∃ c, OnQueue s c 0 := by
  have hrun : (runActs step (bootKernel mpmainTypes) [.userinitAlloc, .userinitRun]).any
      (fun s : Kernel 1 => (s.proc 0).state = .runnable) = true := by decide +kernel
  obtain ⟨s, hr, hs⟩ := exists_reach_of_run (· = bootKernel mpmainTypes) KillsNoSleeper rfl _
    (by simp [KillsNoSleeper]) _ hrun
  have hs : (s.proc 0).state = .runnable := by simpa using hs
  exact ⟨s, hr, hs, (runnable_on_queue mpmainTypes).1 s hr 0 hs⟩

/-- One CPU: init forks a child and waits for it, and the child kills init. -/
def killSleeperRun : List (Act 1) :=
  [.userinitAlloc, .userinitRun, .scheduler 0, .forkAlloc 0, .forkCopy 0, .forkRun 0, .wait 0, .scheduler 0, .kill 0 1]

/-- A run that loses a process: init sleeps in `wait` and becomes `RUNNABLE` on no queue. -/
theorem kill_loses_process :
    ∃ s : Kernel 1, Reachable (· = bootKernel mpmainTypes) step s ∧
      (s.proc 0).state = .runnable ∧ ∀ c, ¬ OnQueue s c 0 := by
  have hrun : (runActs step (bootKernel mpmainTypes) killSleeperRun).any
      (fun s => (s.proc 0).state = .runnable ∧ (s.cpus 0).runq = none) = true := by decide +kernel
  obtain ⟨s, hr, hs⟩ := exists_reachable_of_run (· = bootKernel mpmainTypes) rfl _ _ hrun
  simp only [Bool.decide_and, Bool.and_eq_true, decide_eq_true_eq] at hs
  refine ⟨s, hr, hs.1, fun c hc => ?_⟩
  obtain ⟨l, hl, hp⟩ := hc
  rw [Subsingleton.elim c 0, hs.2] at hl
  rw [chain_none.1 hl] at hp
  cases hp

end Xv6.Sched
