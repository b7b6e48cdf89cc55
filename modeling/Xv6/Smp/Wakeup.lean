/-
`sleep` and `wakeup` lose no wakeup. `sleep(chan, lk)` takes `ptable.lock` before it gives `lk` back
and keeps it until the sleeper is off the CPU, so a process that takes `lk` after a sleeper entered
`sleep` and then scans the table under `ptable.lock` finds it already `SLEEPING`. For `wait`, whose
`lk` is `ptable.lock` itself, the scans are those of `exit`. The argument needs no invariant of the
run queues: `Quiet` is what every section but those of a sleeper does to the processes asleep.
-/
import Xv6.Sched.Inv
import Xv6.Smp.Order

namespace Xv6.Smp

open Base Base.Spin Sched Function

variable {n : Nat} {s s' : Sys n} {c : Fin n} {ch : Chan} {p : Slot} {w : Sleeper} {d d' : Data n} {q q' : Ctl}

/-! ## Sleepers -/

def SleepingOn (k : Kernel n) (p : Slot) (ch : Chan) : Prop :=
  (k.proc p).state = .sleeping ∧ (k.proc p).chan = some ch

/-- The process on CPU `c` calls `sleep(ch, lk)` with `lk` held. `wait` runs on into `sleep` in one
section; `s'` is where that leaves the others. -/
inductive EntersSleep [NeZero n] (s : Sys n) (c : Fin n) (p : Slot) : Lk → Chan → Sys n → Prop
  | sleep (w : Sleeper) (hp : (s.d.k.cpus c).proc = some p) (hc : (s.spin.pc c).top = .sleepAcquire w) :
      EntersSleep s c p w.lk w.chan s
  | wait {x : Choice} {k : Kernel n} {s' : Sys n} (hp : (s.d.k.cpus c).proc = some p)
      (hc : (s.spin.pc c).top = .secRun .wait) (hk : Sched.wait s.d.k c = some (.slept, k))
      (hs : smpStep s (.run c x) = some s') : EntersSleep s c p .ptable (.proc p) s'

/-- In this step `p` goes to sleep on `ch`. -/
inductive GoesToSleep (s : Sys n) (p : Slot) : Chan → SmpAct n → Prop
  | sleep {c : Fin n} {x : Choice} (w : Sleeper) (hp : (s.d.k.cpus c).proc = some p)
      (hc : (s.spin.pc c).top = .sleepRun w) : GoesToSleep s p w.chan (.run c x)
  | wait {c : Fin n} {x : Choice} {k : Kernel n} (hp : (s.d.k.cpus c).proc = some p)
      (hc : (s.spin.pc c).top = .secRun .wait) (hk : Sched.wait s.d.k c = some (.slept, k)) :
      GoesToSleep s p (.proc p) (.run c x)

/-- The section CPU `c` stands at runs `wakeup1(ch)`: the one of `wakeup`, or `exit` for the parent
and, with a zombie child left behind, for init. -/
inductive Scans (s : Sys n) (c : Fin n) : Chan → Prop
  | wakeup (k : Waker) (hc : (s.spin.pc c).top = .wakeRun k) : Scans s c k.chan
  | parent {p r : Slot} (hc : (s.spin.pc c).top = .secRun .exit) (hp : (s.d.k.cpus c).proc = some p)
      (hr : (s.d.k.proc p).parent = some r) : Scans s c (.proc r)
  | init {p r i : Slot} (hc : (s.spin.pc c).top = .secRun .exit) (hp : (s.d.k.cpus c).proc = some p)
      (hr : (s.d.k.proc r).parent = some p) (hz : (s.d.k.proc r).state = .zombie) (hi : s.d.k.initproc = some i) :
      Scans s c (.proc i)

theorem Scans.held (h : Scans s c ch) : Lk.ptable ∈ (s.spin.pc c).held := by
  cases h with
  | wakeup k hc | parent hc | init hc => rw [Ctl.held, hc]; exact .head _

theorem Scans.top_ne (h : Scans s c ch) (w : Sleeper) : (s.spin.pc c).top ≠ .sleepRun w := by
  cases h with
  | wakeup k hc => rw [hc]; simp
  | parent hc | init hc => rw [hc]; simp

/-- `p` is in `sleep` and has not given `lk` back. -/
def Entering (s : Sys n) (c : Fin n) (p : Slot) (w : Sleeper) : Prop :=
  (s.d.k.cpus c).proc = some p ∧ ((s.spin.pc c).top = .sleepAcquire w ∨ (s.spin.pc c).top = .sleepRelease w)

/-- `p` is in `sleep`, with `lk` given back and `ptable.lock` held. -/
def Leaving (s : Sys n) (c : Fin n) (p : Slot) (w : Sleeper) : Prop :=
  (s.d.k.cpus c).proc = some p ∧ (s.spin.pc c).top = .sleepRun w

theorem Entering.held (h : Entering s c p w) : w.lk ∈ (s.spin.pc c).held := by
  rcases h.2 with hc | hc <;> rw [Ctl.held, hc]
  · exact .head _
  · exact .tail _ (.head _)

theorem Leaving.held (h : Leaving s c p w) : Lk.ptable ∈ (s.spin.pc c).held := by
  rw [Ctl.held, h.2]; exact .head _

theorem top_lock (h : s.spin.lock code c = some s'.spin) :
    ∃ l, (s.spin.pc c).top.instr = .acquire l (s'.spin.pc c).top ∨
      (s.spin.pc c).top.instr = .release l (s'.spin.pc c).top := by
  obtain ⟨⟨l, hl⟩, -⟩ := State.lock_pc h
  exact ⟨l, hl.imp (fun h => (Ctl.instr_acquire h).1) fun h => (Ctl.instr_release h).1⟩

/-! ## Sections that put nobody to sleep -/

/-- Code on CPU `c` that leaves what runs on the other CPUs alone and puts no process to sleep. -/
structure Quiet (c : Fin n) (k k' : Kernel n) : Prop where
  cpu : ∀ e, e ≠ c → (k'.cpus e).proc = (k.cpus e).proc
  asleep : ∀ p ch, SleepingOn k' p ch → SleepingOn k p ch

section

variable {k k' k'' : Kernel n}

theorem Quiet.refl (c : Fin n) (k : Kernel n) : Quiet c k k := ⟨fun _ _ => rfl, fun _ _ h => h⟩

theorem Quiet.trans (h1 : Quiet c k k') (h2 : Quiet c k' k'') : Quiet c k k'' :=
  ⟨fun e he => (h2.cpu e he).trans (h1.cpu e he), fun p ch h => h1.asleep p ch (h2.asleep p ch h)⟩

theorem Quiet.of_wakes {W : Slot → Prop} (w : Wakes k k' W) : Quiet c k k' :=
  ⟨fun e _ => (w.cpu e).1, fun p _ h => ⟨w.sleeping h.1, (w.agree p).chan.symm.trans h.2⟩⟩

theorem Quiet.of_eq (hp : k'.proc = k.proc) (hc : k'.cpus = k.cpus) : Quiet c k k' := by
  refine ⟨fun e _ => by rw [hc], fun p ch h => ?_⟩
  unfold SleepingOn at *
  rwa [hp] at h

/-- An assignment to a process that does not leave it `SLEEPING`, or finds it so. -/
theorem Quiet.modProc (p : Slot) {f : Proc → Proc}
    (hf : (f (k.proc p)).state = .sleeping → (k.proc p).state = .sleeping ∧ (f (k.proc p)).chan = (k.proc p).chan) :
    Quiet c k (k.modProc p f) := by
  refine ⟨fun _ _ => rfl, fun r ch h => ?_⟩
  unfold SleepingOn at *
  by_cases e : r = p
  · subst e
    rw [Kernel.modProc_proc, update_self] at h
    obtain ⟨hs, hc⟩ := hf h.1
    exact ⟨hs, hc ▸ h.2⟩
  · rwa [Kernel.modProc_proc, update_of_ne e] at h

theorem Quiet.setState (k : Kernel n) (p : Slot) {st : ProcState} (h : st ≠ .sleeping) : Quiet c k (k.setState p st) :=
  .modProc p fun hs => absurd hs h

theorem Quiet.modCpu (k : Kernel n) (f : Cpu → Cpu) : Quiet c k (k.modCpu c f) :=
  ⟨fun e he => by rw [Kernel.modCpu_cpus, update_of_ne he], fun _ _ h => h⟩

theorem quiet_yield (e : yield k c = some k') : Quiet c k k' := by
  obtain ⟨p, -, e⟩ := Option.bind_eq_some_iff.1 e
  obtain ⟨k1, e1, e⟩ := Option.bind_eq_some_iff.1 e
  obtain ⟨r, -, e⟩ := Option.bind_eq_some_iff.1 e
  split at e
  · cases e
  · rw [← Option.some.inj e]
    have h1 : Quiet c k (k.setState p .runnable) := .setState k p (by simp)
    exact (h1.trans (.of_wakes (enqueue_wakes e1).1)).trans (.modCpu k1 _)

theorem quiet_schedulerPick (e : schedulerPick k c = some k') : Quiet c k k' := by
  obtain ⟨o, -, e⟩ := Option.bind_eq_some_iff.1 e
  cases o with
  | none => rw [← Option.some.inj e]; exact .refl c k
  | some p =>
    obtain ⟨⟨r, k1⟩, e1, e⟩ := Option.bind_eq_some_iff.1 e
    have h1 : Quiet c k k1 := .of_wakes (dequeue_wakes e1).1
    simp only at e
    split at e
    · rw [← Option.some.inj e]; exact h1
    · rw [← Option.some.inj e]; exact (h1.trans (.modCpu k1 _)).trans (.modProc p nofun)

theorem quiet_scheduler (e : scheduler k c = some k') : Quiet c k k' := by
  unfold scheduler at e
  split at e
  · obtain ⟨k1, e1, e⟩ := Option.bind_eq_some_iff.1 e
    exact (Quiet.of_wakes (loadBalance_wakes e1).1).trans (quiet_schedulerPick e)
  · exact quiet_schedulerPick e

theorem quiet_exitStart (k : Kernel n) (p : Slot) : Quiet c k (exitStart k p) := by
  refine ⟨fun e _ => by rw [(exitStart_rest k p).1], fun r ch h => ?_⟩
  obtain ⟨hs, -, hc⟩ := exitStart_fields k p r
  exact ⟨hs ▸ h.1, hc ▸ h.2⟩

theorem quiet_exit [NeZero n] (e : exit k c = some k') : Quiet c k k' := by
  obtain ⟨p, k2, -, w, rfl⟩ := exit_wakes e
  exact (((quiet_exitStart k p).trans (.of_wakes w)).trans (.setState k2 p (by simp))).trans (.modCpu _ _)

theorem quiet_kill (k : Kernel n) (pid : Int) : Quiet c k (kill k pid).2 := by
  unfold kill
  split
  · exact .refl c k
  · dsimp only
    apply Quiet.modProc
    dsimp only
    split
    · intro h; cases h
    · exact fun h => ⟨h, rfl⟩

theorem quiet_timerSlice (k : Kernel n) (c : Fin n) : Quiet c k (timerSlice k c).1 := by
  have h1 : Quiet c k (sliceTick k c) := by
    unfold sliceTick
    split
    · split
      · exact .modProc _ fun h => ⟨h, rfl⟩
      · exact .refl c k
    · exact .refl c k
  unfold timerSlice
  simp only
  split
  · exact h1
  · split
    · split
      · split
        · dsimp only; exact h1.trans (.modProc _ fun h => ⟨h, rfl⟩)
        · exact h1
      · exact h1
    · exact h1

theorem quiet_allocScan (e : allocScan k = some (p, k')) : Quiet c k k' := by
  unfold allocScan at e
  split at e
  · cases e
  · rename_i r _
    cases e
    exact (Quiet.modProc (f := fun q => { q with state := .embryo, pid := k.nextpid }) p nofun).trans (.of_eq rfl rfl)

theorem sleep_eq {ch : Option Chan} (e : sleep k c ch = some k') :
    ∃ p, (k.cpus c).proc = some p ∧ k' = (k.modProc p fun r => { r with chan := ch, state := .sleeping }).idle c := by
  obtain ⟨p, hp, e⟩ := Option.bind_eq_some_iff.1 e
  obtain ⟨r, -, e⟩ := Option.bind_eq_some_iff.1 e
  split at e
  · cases e
  · exact ⟨p, hp, (Option.some.inj e).symm⟩

theorem wait_cases {r : WaitRes} (e : Sched.wait k c = some (r, k')) :
    ((∃ pid, r = .ret pid) ∧ Quiet c k k') ∨
    (r = .slept ∧ ∃ p, (k.cpus c).proc = some p ∧
      k' = (k.modProc p fun r => { r with chan := some (.proc p), state := .sleeping }).idle c) := by
  obtain ⟨p, hp, e⟩ := Option.bind_eq_some_iff.1 e
  split at e
  · cases e; exact .inl ⟨⟨_, rfl⟩, .modProc _ nofun⟩
  · split at e
    · cases e; exact .inl ⟨⟨_, rfl⟩, .refl c k⟩
    · obtain ⟨k1, e1, e⟩ := Option.bind_eq_some_iff.1 e
      cases e
      obtain ⟨p', hp', rfl⟩ := sleep_eq e1
      rw [hp] at hp'
      cases hp'
      exact .inr ⟨rfl, p, hp, rfl⟩

end

/-! ## Steps -/

section

variable [NeZero n] {x : Choice} {s0 : Sys n}

/-- The code between two lock operations puts nobody to sleep, or it is the section of a sleeper. -/
theorem run_quiet (h : run d c q x = some (d', q')) : Quiet c d.k d'.k ∨
    (∃ w, q.top = .sleepRun w ∧ sleep d.k c (some w.chan) = some d'.k) ∨
    (q.top = .secRun .wait ∧ Sched.wait d.k c = some (.slept, d'.k)) := by
  rcases q with ⟨top, below⟩
  cases top
  case ret =>
    simp only [run, runRet] at h
    split at h
    · cases h; exact .inl (.refl c _)
    · split at h
      · cases h
      · cases h; exact .inl (.refl c _)
    · cases h
  case schedRun =>
    obtain ⟨k, hk, h⟩ := Option.map_eq_some_iff.1 h
    have hd : d'.k = k := by
      unfold Data.resume at h
      split at h <;> cases h <;> rfl
    rw [hd]
    exact .inl (quiet_scheduler hk)
  case allocScan f =>
    simp only [run] at h
    split at h
    · cases h; exact .inl (.refl c _)
    · rename_i p k hk; cases h; exact .inl (quiet_allocScan hk)
  case allocInit f p =>
    cases h
    left
    dsimp only [Data.setK, allocInit]
    exact .modProc p fun hs => ⟨hs, rfl⟩
  case allocStack f p =>
    simp only [run, runStack] at h
    split at h
    · split at h
      · cases h
      · cases h; exact .inl (.setState d.k p (by simp))
    · cases h; exact .inl (.refl c _)
  case copy f p =>
    simp only [run, runCopy] at h
    split at h
    · cases h; exact .inl (.of_eq rfl rfl)
    · split at h
      · cases h; exact .inl (.setState d.k p (by simp))
      · cases h
        left
        dsimp only [Data.setK]
        exact .modProc p fun hs => ⟨hs, rfl⟩
  case runRun f p =>
    obtain ⟨k, hk, h⟩ := Option.map_eq_some_iff.1 h
    cases h
    exact .inl ((Quiet.setState d.k p (by simp)).trans (.of_wakes (makeRunnable_wakes hk).1))
  case secRun y =>
    cases y with
    | exit =>
      obtain ⟨k, hk, h⟩ := Option.map_eq_some_iff.1 h
      cases h
      exact .inl (quiet_exit hk)
    | wait =>
      obtain ⟨⟨r, k⟩, hk, h⟩ := Option.map_eq_some_iff.1 h
      rcases wait_cases hk with ⟨⟨pid, rfl⟩, hq⟩ | ⟨rfl, -⟩
      · cases h; exact .inl hq
      · cases h; exact .inr (.inr ⟨rfl, hk⟩)
    | kill pid => cases h; exact .inl (quiet_kill d.k pid)
    | family => cases h; exact .inl (.refl c _)
    | startMeasure => cases h; exact .inl (.of_eq rfl rfl)
    | endMeasure =>
      cases h
      refine .inl ?_
      unfold endMeasure Data.setK
      split <;> exact .of_eq rfl rfl
  case sleepRun w =>
    obtain ⟨k, hk, h⟩ := Option.map_eq_some_iff.1 h
    cases h
    exact .inr (.inl ⟨w, rfl, hk⟩)
  case wakeRun k =>
    obtain ⟨k', hk, h⟩ := Option.map_eq_some_iff.1 h
    cases h
    exact .inl (.of_wakes (wakeup1_wakes hk).1)
  case timerTick => cases h; exact .inl (.of_eq rfl rfl)
  case timerSlice => cases h; exact .inl (quiet_timerSlice d.k c)
  case yieldRun =>
    obtain ⟨k, hk, h⟩ := Option.map_eq_some_iff.1 h
    cases h
    exact .inl (quiet_yield hk)
  case printRun k =>
    cases x with
    | put gs =>
      simp only [run, runPrint] at h
      split at h
      · cases h; exact .inl (.refl c _)
      · cases h
    | _ => cases h
  case intrKeys keys dump =>
    cases keys with
    | nil => cases h; exact .inl (.refl c _)
    | cons key rest =>
      simp only [run, runKeys] at h
      split at h
      · cases h; exact .inl (.refl c _)
      · cases h
  case readLoop target m out =>
    simp only [run, runRead] at h
    split at h <;> cases h <;> exact .inl (.refl c _)
  all_goals (cases h; try exact .inl (.refl c _))

variable {a : SmpAct n}

theorem run_cpu (h : run d c q x = some (d', q')) {e : Fin n} (he : e ≠ c) :
    (d'.k.cpus e).proc = (d.k.cpus e).proc := by
  have hpark : ∀ {p : Slot} {f : Proc → Proc}, d'.k = (d.k.modProc p f).idle c →
      (d'.k.cpus e).proc = (d.k.cpus e).proc := by
    intro p f hk
    rw [hk, Kernel.modCpu_cpus, update_of_ne he]
    rfl
  rcases run_quiet h with hq | ⟨w, -, hk⟩ | ⟨-, hk⟩
  · exact hq.cpu e he
  · obtain ⟨p, -, hk⟩ := sleep_eq hk; exact hpark hk
  · rcases wait_cases hk with ⟨⟨pid, hr⟩, -⟩ | ⟨-, p, -, hk⟩
    · cases hr
    · exact hpark hk

/-- A CPU that holds a lock takes no interrupt: it stays, or takes its own next step. -/
theorem step_at (h : smpStep s a = some s') (hc : (s.spin.pc c).top.held ≠ []) :
    (s'.spin.pc c = s.spin.pc c ∧ (s'.d.k.cpus c).proc = (s.d.k.cpus c).proc) ∨
    (a = .lock c ∧ s'.d = s.d ∧ s.spin.lock code c = some s'.spin) ∨
    ∃ x q', a = .run c x ∧ run s.d c (s.spin.pc c) x = some (s'.d, q') := by
  have hintr : ∀ e t, s.interrupt e t = some s' →
      s'.spin.pc c = s.spin.pc c ∧ (s'.d.k.cpus c).proc = (s.d.k.cpus c).proc := by
    intro e t h
    obtain ⟨q, hq, rfl⟩ := Option.map_eq_some_iff.1 h
    by_cases he : c = e
    · subst he
      unfold Smp.interrupt at hq
      rw [dif_neg fun hi => hc hi.2.2] at hq
      cases hq
    · exact ⟨State.pc_jump_of_ne _ _ he, rfl⟩
  cases a with
  | lock e =>
    obtain ⟨t, ht, rfl⟩ := Option.map_eq_some_iff.1 h
    by_cases he : c = e
    · subst he; exact .inr (.inl ⟨rfl, rfl, ht⟩)
    · exact .inl ⟨(State.lock_pc ht).2 c he, rfl⟩
  | run e x =>
    obtain ⟨⟨d', q'⟩, hr, rfl⟩ := Option.map_eq_some_iff.1 h
    by_cases he : c = e
    · subst he; exact .inr (.inr ⟨x, q', rfl, hr⟩)
    · exact .inl ⟨State.pc_jump_of_ne _ _ he, run_cpu hr he⟩
  | timer e | irq e m => exact .inl (hintr e _ h)
  | kbd keys => exact .inl (hintr 0 _ h)

/-- A process is asleep on a channel only if it was, or goes to sleep on it in this step. -/
theorem asleep_step (h : smpStep s a = some s') (hs : SleepingOn s'.d.k p ch) :
    SleepingOn s.d.k p ch ∨ GoesToSleep s p ch a := by
  have hpark : ∀ {d' : Data n} {c : Fin n} {r : Slot} {v : Chan},
      d'.k = (s.d.k.modProc r fun y => { y with chan := some v, state := .sleeping }).idle c →
      SleepingOn d'.k p ch → SleepingOn s.d.k p ch ∨ (p = r ∧ ch = v) := by
    intro d' c r v hk hs
    unfold SleepingOn at *
    rw [hk] at hs
    by_cases e : p = r
    · subst e
      simp only [Kernel.modCpu_proc, Kernel.modProc_proc, update_self, Option.some.injEq] at hs
      exact .inr ⟨rfl, hs.2.symm⟩
    · simp only [Kernel.modCpu_proc, Kernel.modProc_proc, update_of_ne e] at hs; exact .inl hs
  have hintr : ∀ e t, s.interrupt e t = some s' → SleepingOn s.d.k p ch := by
    intro e t h; obtain ⟨q, -, rfl⟩ := Option.map_eq_some_iff.1 h; exact hs
  cases a with
  | lock e => obtain ⟨t, -, rfl⟩ := Option.map_eq_some_iff.1 h; exact .inl hs
  | run e x =>
    obtain ⟨⟨d', q'⟩, hr, rfl⟩ := Option.map_eq_some_iff.1 h
    rcases run_quiet hr with hq | ⟨w, hw, hk⟩ | ⟨hw, hk⟩
    · exact .inl (hq.asleep p ch hs)
    · obtain ⟨r, hr, hd⟩ := sleep_eq hk
      rcases hpark hd hs with hs | ⟨rfl, rfl⟩
      · exact .inl hs
      · exact .inr (.sleep w hr hw)
    · rcases wait_cases hk with ⟨⟨pid, hr⟩, -⟩ | ⟨-, r, hr, hd⟩
      · cases hr
      · rcases hpark hd hs with hs | ⟨rfl, rfl⟩
        · exact .inl hs
        · exact .inr (.wait hr hw hk)
  | timer e => exact .inl (hintr e _ h)
  | kbd keys => exact .inl (hintr 0 _ h)
  | irq e m => exact .inl (hintr e _ h)

/-- `wakeup1` leaves nobody asleep on its channel, and `exit` puts nobody back to sleep. -/
theorem awake_of_scan (hsc : Scans s c ch) (h : smpStep s (.run c x) = some s') (p : Slot) :
    ¬ SleepingOn s'.d.k p ch := by
  obtain ⟨⟨d', q'⟩, hr, rfl⟩ := Option.map_eq_some_iff.1 h
  rintro ⟨hs, hch⟩
  -- a process asleep behind the section of `exit` is not one of those it wakes
  have hexit : (s.spin.pc c).top = .secRun .exit → ∃ q, (s.d.k.cpus c).proc = some q ∧ ¬ ExitWakes s.d.k q p ∧
      (s.d.k.proc p).chan = some ch := by
    intro hc
    rw [run, hc] at hr
    obtain ⟨k, hk, hr⟩ := Option.map_eq_some_iff.1 hr
    cases hr
    obtain ⟨q, k2, hq, w, rfl⟩ := exit_wakes hk
    have hpq : p ≠ q := by
      rintro rfl; simp [Kernel.setState] at hs
    simp only [Kernel.setState, Kernel.modCpu_proc, Kernel.modProc_proc, update_of_ne hpq] at hs hch
    obtain ⟨hst, -, hcst⟩ := exitStart_fields s.d.k q p
    refine ⟨q, hq, fun hw => ?_, ?_⟩
    · rw [w.woken p (w.sleeping hs) hw] at hs; cases hs
    · rw [← hcst, ← (w.agree p).chan]; exact hch
  cases hsc with
  | wakeup k hc =>
    rw [run, hc] at hr
    obtain ⟨k', hk, hr⟩ := Option.map_eq_some_iff.1 hr
    cases hr
    obtain ⟨w, -⟩ := wakeup1_wakes hk
    have hsl := w.woken p (w.sleeping hs) ((w.agree p).chan.symm.trans hch)
    exact absurd (hsl.symm.trans hs) (by simp)
  | parent hc hq hr =>
    obtain ⟨q, hq', hn, hpc⟩ := hexit hc
    rw [hq] at hq'
    cases hq'
    exact hn (.inl (by rw [hpc, hr]; rfl))
  | init hc hq hr hz hi =>
    obtain ⟨q, hq', hn, hpc⟩ := hexit hc
    rw [hq] at hq'
    cases hq'
    exact hn (.inr ⟨_, hr, hz, by rw [hpc, hi]; rfl⟩)

/-! ## The hand-over -/

theorem entering_step (h : smpStep s a = some s') (he : Entering s c p w) : Entering s' c p w ∨ Leaving s' c p w := by
  have hheld := List.ne_nil_of_mem he.held
  obtain ⟨hp, hc⟩ := he
  rcases step_at h hheld with ⟨hpc, hproc⟩ | ⟨-, hd, hl⟩ | ⟨x, q', -, hr⟩
  · refine .inl ⟨hproc.trans hp, ?_⟩
    rwa [hpc]
  · obtain ⟨l, hl⟩ := top_lock hl
    have hp' : (s'.d.k.cpus c).proc = some p := by rw [hd]; exact hp
    rcases hc with hc | hc
    · rw [hc] at hl
      rcases hl with hl | hl
      · injection hl with _ htop; exact .inl ⟨hp', .inr htop.symm⟩
      · cases hl
    · rw [hc] at hl
      rcases hl with hl | hl
      · cases hl
      · injection hl with _ htop; exact .inr ⟨hp', htop.symm⟩
  · rcases hc with hc | hc <;> (rw [run, hc] at hr; cases hr)

theorem leaving_step (h : smpStep s a = some s') (hl : Leaving s c p w) :
    Leaving s' c p w ∨ SleepingOn s'.d.k p w.chan := by
  have hheld := List.ne_nil_of_mem hl.held
  obtain ⟨hp, hc⟩ := hl
  rcases step_at h hheld with ⟨hpc, hproc⟩ | ⟨-, -, hl⟩ | ⟨x, q', -, hr⟩
  · refine .inl ⟨hproc.trans hp, ?_⟩
    rwa [hpc]
  · obtain ⟨l, hl⟩ := top_lock hl
    rw [hc] at hl
    rcases hl with hl | hl <;> cases hl
  · rw [run, hc] at hr
    obtain ⟨k, hk, hr⟩ := Option.map_eq_some_iff.1 hr
    obtain ⟨p', hp', rfl⟩ := sleep_eq hk
    rw [hp] at hp'
    cases hp'
    have hd : s'.d.k = _ := congrArg Data.k (Prod.ext_iff.1 hr).1.symm
    right
    rw [hd]
    exact ⟨by simp [Data.switch], by simp [Data.switch]⟩

/-- A run in which `p` was asleep on `ch` on the way. -/
def Slept (s0 : Sys n) (p : Slot) (ch : Chan) (s : Sys n) : Prop :=
  ∃ u, Reachable (· = s0) smpStep u ∧ SleepingOn u.d.k p ch ∧ Reachable (· = u) smpStep s

theorem Slept.step (hs : Slept s0 p ch s) (h : smpStep s a = some s') : Slept s0 p ch s' := by
  obtain ⟨u, h1, hu, h2⟩ := hs; exact ⟨u, h1, hu, .step h2 trivial h⟩

/-- From the call of `sleep` to the end of its section, `lk` or `ptable.lock` is held throughout. -/
theorem entering_run (h0 : Entering s0 c p w) (hr : Reachable (· = s0) smpStep s) :
    Entering s c p w ∨ Leaving s c p w ∨ Slept s0 p w.chan s := by
  induction hr with
  | init h => rw [h]; exact .inl h0
  | step hr _ h ih =>
    rcases ih with he | hl | hs
    · exact (entering_step h he).imp_right .inl
    · rcases leaving_step h hl with hl | hs
      · exact .inr (.inl hl)
      · exact .inr (.inr ⟨_, .step hr trivial h, hs, .init rfl⟩)
    · exact .inr (.inr (hs.step h))

/-- Once `lk` is given back, only the section that marks the sleeper is left. -/
theorem leaving_run {s2 : Sys n} (h02 : Reachable (· = s0) smpStep s2) (h2 : Leaving s2 c p w ∨ Slept s0 p w.chan s2)
    (hr : Reachable (· = s2) smpStep s) : Leaving s c p w ∨ Slept s0 p w.chan s := by
  induction hr with
  | init h => rw [h]; exact h2
  | step hr _ h ih =>
    rcases ih with hl | hs
    · refine (leaving_step h hl).imp_right fun hs => ?_
      exact ⟨_, .step (h02.trans hr) trivial h, hs, .init rfl⟩
    · exact .inr (hs.step h)

/-- In every interleaving: a process calls `sleep(ch, lk)` with `lk` held, a CPU takes `lk` later, and
after that a scan for `ch` is run. Then the sleeper was asleep on `ch` before the scan, and after it the
sleeper is not, until it goes to sleep on `ch` again. -/
theorem no_lost_wakeup (types : Fin n → CoreType) (pos : Nat) {s0 s0' s1 s2 s3 s4 s5 : Sys n} {c d e : Fin n}
    {p : Slot} {lk : Lk} {ch : Chan} {q : Ctl} {x : Choice} (h0 : Reachable (· = bootSys types pos) smpStep s0)
    (hent : EntersSleep s0 c p lk ch s0') (h1 : Reachable (· = s0') smpStep s1)
    (hacq : code.instr (s1.spin.pc d) = .acquire lk q) (h2 : smpStep s1 (.lock d) = some s2)
    (h3 : Reachable (· = s2) smpStep s3) (hscan : Scans s3 e ch) (h4 : smpStep s3 (.run e x) = some s4)
    (h5 : Reach (· = s4) smpStep (fun s a => ¬ GoesToSleep s p ch a) s5) :
    Slept s0' p ch s3 ∧ ¬ SleepingOn s5.d.k p ch := by
  constructor
  · have h02 : Reachable (· = s0') smpStep s2 := .step h1 trivial h2
    cases hent with
    | wait hp hc hk hs =>
      -- the section of `wait` has marked the process
      refine ⟨s0', .init rfl, ?_, h02.trans h3⟩
      rcases wait_cases hk with ⟨⟨pid, hr⟩, -⟩ | ⟨-, p', hp', rfl⟩
      · cases hr
      · rw [hp] at hp'
        cases hp'
        obtain ⟨⟨d', q'⟩, hr, rfl⟩ := Option.map_eq_some_iff.1 hs
        simp only [run, hc, runSection, hk, Option.map_some] at hr
        cases hr
        constructor <;> simp
    | sleep w hp hc =>
      have hown : ∀ {s}, Reachable (· = s0) smpStep s → Owned code s.spin := fun hr => owned_reach (h0.trans hr)
      -- `lk` is free when it is taken, so the sleeper has given it back
      have hl1 : Leaving s1 c p w ∨ Slept s0 p w.chan s1 := by
        refine (entering_run ⟨hp, .inl hc⟩ h1).resolve_left fun he => ?_
        have hc1 : s1.spin.owner w.lk = some c := (hown h1 w.lk c).2 he.held
        obtain ⟨t, ht, -⟩ := Option.map_eq_some_iff.1 h2
        rw [State.lock, hacq] at ht
        simp only [hc1] at ht
        cases ht
      have hl2 : Leaving s2 c p w ∨ Slept s0 p w.chan s2 := leaving_run h1 hl1 (.step (.init rfl) trivial h2)
      refine (leaving_run h02 hl2 h3).resolve_left fun hl => ?_
      -- and `ptable.lock` is held at the scan, so the sleeper has given that back too
      obtain rfl : c = e := (hown (h02.trans h3)).excl hl.held hscan.held
      exact hscan.top_ne w hl.2
  · refine h5.inv (P := fun s => ¬ SleepingOn s.d.k p ch) ?_ fun s a s' hn hok h hs => ?_
    · rintro _ rfl; exact awake_of_scan hscan h4 p
    · exact (asleep_step h hs).elim hn hok

end

/-- Two CPUs: init calls `sleep` under a device's lock and gives the lock back; before it is marked, the
device's handler takes the lock on CPU 1, and spins in `wakeup` until init is off CPU 0. -/
theorem no_lost_wakeup_handler :
    ∃ s0 s1 s2 s3 s4 : Sys 2, EntersSleep s0 0 0 (.other 7) (.addr 3) s0 ∧ Reachable (· = s0) smpStep s1 ∧
      Leaving s1 0 0 (.other 7 (.addr 3)) ∧ smpStep s1 (.lock 1) = some s2 ∧ Reachable (· = s2) smpStep s3 ∧
      Scans s3 1 (.addr 3) ∧ smpStep s3 (.run 1 .go) = some s4 ∧ Slept s0 0 (.addr 3) s3 ∧
      ¬ SleepingOn s4.d.k 0 (.addr 3) := by
  have hrun : (runActs smpStep (bootSys mpmainTypes 0)
      (createRun 0 ++ dispatchRun 0 ++ [.run 0 (.call (.other 7)), .lock 0, .run 0 (.sleep (.addr 3))])).any
      (fun s0 : Sys 2 =>
        (s0.d.k.cpus 0).proc = some 0 && (s0.spin.pc 0).top = .sleepAcquire (.other 7 (.addr 3)) &&
        (runActs smpStep s0 [.irq 1 7, .lock 0, .lock 0]).any fun s1 =>
          (s1.d.k.cpus 0).proc = some 0 && (s1.spin.pc 0).top = .sleepRun (.other 7 (.addr 3)) &&
          (s1.spin.pc 1).top = .otherAcquire 7 &&
          (smpStep s1 (.lock 1)).any fun s2 =>
            (runActs smpStep s2 [.run 1 (.wakeup (.addr 3)), .run 0 .go, .lock 0, .lock 1]).any fun s3 =>
              (s3.spin.pc 1).top = .wakeRun (.other 7 (.addr 3)) && (smpStep s3 (.run 1 .go)).isSome) = true := by
    decide +kernel
  obtain ⟨s0, h0, hs⟩ := exists_reachable_of_run (· = bootSys mpmainTypes 0) rfl _ _ hrun
  simp only [Bool.and_eq_true, decide_eq_true_eq] at hs
  obtain ⟨⟨hp, hc⟩, hs⟩ := hs
  obtain ⟨s1, h1, hs⟩ := exists_reachable_of_run (· = s0) rfl _ _ hs
  simp only [Bool.and_eq_true, decide_eq_true_eq] at hs
  obtain ⟨⟨⟨hp1, hc1⟩, hd⟩, hs⟩ := hs
  obtain ⟨s2, h2, hs⟩ := (Option.any_eq_true _ _).1 hs
  obtain ⟨s3, h3, hs⟩ := exists_reachable_of_run (· = s2) rfl _ _ hs
  simp only [Bool.and_eq_true, decide_eq_true_eq] at hs
  obtain ⟨hk, hs⟩ := hs
  obtain ⟨s4, h4⟩ := Option.isSome_iff_exists.1 hs
  have hent : EntersSleep s0 0 0 (.other 7) (.addr 3) s0 := .sleep (.other 7 (.addr 3)) hp hc
  have hscan : Scans s3 1 (.addr 3) := .wakeup (.other 7 (.addr 3)) hk
  have hacq : code.instr (s1.spin.pc 1) = .acquire (.other 7) ((s1.spin.pc 1).goto (.otherRun 7)) := by
    simp only [code, Ctl.instr, hd]; rfl
  have hres := no_lost_wakeup mpmainTypes 0 h0 hent h1 hacq h2 h3 hscan h4 (.init rfl)
  exact ⟨s0, s1, s2, s3, s4, hent, h1, ⟨hp1, hc1⟩, h2, h3, hscan, h4, hres.1, hres.2⟩

end Xv6.Smp
