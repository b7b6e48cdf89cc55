/-
Lock order. Two pairs of locks are taken in both orders: `allocproc` takes `tickslock` under
`ptable.lock` while the clock interrupt and `sys_sleep` take `ptable.lock` under `tickslock`, and
`print_info` takes `cons.lock` under `ptable.lock` while `consoleintr` and `consoleread` take
`ptable.lock` under `cons.lock`. For each pair the points at which one order is under way form a
window; a run that enters no window while another CPU is in the opposite one never deadlocks, and
the runs that do are there from boot.
-/
import Xv6.Smp.Code

namespace Xv6.Smp

open Base Base.Spin Sched Console Function

variable {n : Nat} {l m : Lk} {k' : Kernel n} {r : Slot} {s s' : Sys n} {a : SmpAct n}

/-! ## Windows -/

namespace Point

/-- `ptable.lock` is held and `acquire(&tickslock)` is next: `allocproc` with a slot found. -/
def creating : Point → Bool
  | .allocTicks _ _ => true
  | _ => false

/-- `tickslock` is held and `acquire(&ptable.lock)` is ahead: the clock interrupt before its
`wakeup`, and `sys_sleep` going to sleep. -/
def clocking : Point → Bool
  | .timerTick | .wakeAcquire .timer | .sleepAcquire (.sysSleep _ _) => true
  | _ => false

/-- `cons.lock` is held and `acquire(&ptable.lock)` is next. -/
def consoling : Point → Bool
  | .wakeAcquire (.consoleintr _ _) | .sleepAcquire (.consoleread _ _ _) => true
  | _ => false

/-- `print_info` is in its locked part with a line still to print. -/
def Printing (k : Kernel n) : Point → Prop
  | .printAcquire (.printInfo _) | .printRun (.printInfo _) | .printRelease (.printInfo _) => True
  | .infoRow i => ∃ p : Slot, i ≤ p.val ∧ (k.proc p).state ≠ .unused
  | _ => False

instance (k : Kernel n) (p : Point) : Decidable (p.Printing k) := by
  unfold Printing; split <;> infer_instance

end Point

/-- `allocproc` finds a slot only while no other CPU holds `tickslock` with `acquire(&ptable.lock)`
ahead, and `sys_sleep` decides to sleep only while no other CPU is in `allocproc` before its
`acquire(&tickslock)`. -/
def CreationClearAt (s : Sys n) (c : Fin n) : Point → Prop
  | .allocScan _ => (∃ p, (s.d.k.proc p).state = .unused) → ∀ d, d ≠ c → (s.spin.pc d).top.clocking = false
  | .sysSleepLoop t m => sleepsOn s.d.k c t m = true → ∀ d, d ≠ c → (s.spin.pc d).top.creating = false
  | _ => True

/-- In addition the clock interrupt takes `tickslock` only while no other CPU is there. -/
def CreationClear (s : Sys n) : SmpAct n → Prop
  | .lock c => (s.spin.pc c).top = .timerAcquire → ∀ d, d ≠ c → (s.spin.pc d).top.creating = false
  | .run c _ => CreationClearAt s c (s.spin.pc c).top
  | _ => True

instance (s : Sys n) (c : Fin n) (p : Point) : Decidable (CreationClearAt s c p) := by
  unfold CreationClearAt; split <;> infer_instance

instance (s : Sys n) : (a : SmpAct n) → Decidable (CreationClear s a)
  | .lock _ => inferInstanceAs (Decidable (_ → _))
  | .run c _ => inferInstanceAs (Decidable (CreationClearAt s c (s.spin.pc c).top))
  | .timer _ | .kbd _ | .irq _ _ => inferInstanceAs (Decidable True)

/-- The key makes `consoleintr` call `wakeup`. -/
def wakes (con : Input) (c : UInt8) : Bool :=
  match key con c with
  | .ok o => o.wake
  | .error _ => false

/-- `consoleread` finds no more input and goes to sleep. -/
def readSleeps (d : Data n) (c : Fin n) (target m : Nat) (out : List UInt8) : Bool :=
  (consoleread target m d.con out).2.2.2 = .sleeps && !killed d.k c

/-- A key wakes a reader, or a reader goes to sleep, only while no other CPU is in `print_info` with
a line still to print. -/
def PrintClearAt (s : Sys n) (c : Fin n) : Point → Prop
  | .intrKeys (key :: _) _ => wakes s.d.con key = true → ∀ d, d ≠ c → ¬ (s.spin.pc d).top.Printing s.d.k
  | .readLoop target m out => readSleeps s.d c target m out = true → ∀ d, d ≠ c → ¬ (s.spin.pc d).top.Printing s.d.k
  | _ => True

/-- In addition `print_info` takes `ptable.lock` only while no other CPU holds `cons.lock` and is
about to take `ptable.lock`. -/
def PrintClear (s : Sys n) : SmpAct n → Prop
  | .lock c => (s.spin.pc c).top = .infoAcquire → ∀ d, d ≠ c → (s.spin.pc d).top.consoling = false
  | .run c _ => PrintClearAt s c (s.spin.pc c).top
  | _ => True

instance (s : Sys n) (c : Fin n) (p : Point) : Decidable (PrintClearAt s c p) := by
  unfold PrintClearAt; split <;> infer_instance

instance (s : Sys n) : (a : SmpAct n) → Decidable (PrintClear s a)
  | .lock _ => inferInstanceAs (Decidable (_ → _))
  | .run c _ => inferInstanceAs (Decidable (PrintClearAt s c (s.spin.pc c).top))
  | .timer _ | .kbd _ | .irq _ _ => inferInstanceAs (Decidable True)

variable {p q : Point} {k : Kernel n} {d d' : Data n} {c : Fin n} {q' : Ctl}

theorem Point.nested (hl : m ∈ p.held) (h : p.instr = .acquire l q) (k : Kernel n) :
    (m = .ptable → l = .tickslock → p.creating = true) ∧ (m = .tickslock → l = .ptable → p.clocking = true) ∧
    (m = .ptable → l = .cons → p.Printing k) ∧ (m = .cons → l = .ptable → p.consoling = true) := by
  refine ⟨?_, ?_, ?_, ?_⟩
  all_goals
    rintro rfl rfl
    cases p
    case allocTicks f p => first | rfl | cases h
    case sleepAcquire w => cases w <;> first | rfl | cases List.mem_singleton.1 hl
    case wakeAcquire k => cases k <;> first | rfl | cases List.mem_singleton.1 hl
    case printAcquire j => cases j <;> first | exact trivial | (cases h; done) | cases hl
    case runRelease f => cases f <;> cases h
    all_goals first
      | exact absurd hl List.not_mem_nil
      | cases h

theorem Point.Printing.held (h : p.Printing k) : Lk.ptable ∈ p.held := by
  cases p
  case printAcquire k => cases k <;> first | exact List.mem_singleton_self _ | cases h
  case printRun k => cases k <;> first | exact .tail _ (.head _) | cases h
  case printRelease k => cases k <;> first | exact .tail _ (.head _) | cases h
  case infoRow i => exact List.mem_singleton_self _
  all_goals cases h

/-- A line to print is not lost, and none is found, while no process is created. -/
theorem Point.Printing.mono (h : p.Printing k') (hu : ∀ r, (k.proc r).state = .unused → (k'.proc r).state = .unused) :
    p.Printing k := by
  cases p
  case infoRow i =>
    obtain ⟨r, hr, hs⟩ := h; exact ⟨r, hr, fun h => hs (hu r h)⟩
  case printAcquire j => cases j <;> exact h
  case printRun j => cases j <;> exact h
  case printRelease j => cases j <;> exact h
  all_goals exact h

/-! ## What one step can do -/

/-- What the code between two lock operations does to locks and windows. -/
structure RunSpec (d : Data n) (c : Fin n) (q : Ctl) (d' : Data n) (q' : Ctl) : Prop where
  held : q'.held = q.held
  creating : q'.top.creating = true → ∃ f, q.top = .allocScan f ∧ ∃ p, (d.k.proc p).state = .unused
  clocking : q'.top.clocking = true → q.top.clocking = true ∨ ∃ t m, q.top = .sysSleepLoop t m ∧
    sleepsOn d.k c t m = true
  consoling : q'.top.consoling = true →
    (∃ key rest dump, q.top = .intrKeys (key :: rest) dump ∧ wakes d.con key = true) ∨
      ∃ target m out, q.top = .readLoop target m out ∧ readSleeps d c target m out = true
  printing : q'.top.Printing d'.k → q.top.Printing d.k
  unused : Lk.ptable ∉ q.held → ∀ p, (d.k.proc p).state = .unused → (d'.k.proc p).state = .unused

section

variable {q : Ctl} (held : q'.held = q.held) (h1 : q'.top.creating = false) (h2 : q'.top.clocking = false)
  (h3 : q'.top.consoling = false) (h4 : ¬ q'.top.Printing d'.k)

include held h1 h2 h3 h4

/-- A step to a point outside all windows. -/
theorem RunSpec.plain
    (unused : Lk.ptable ∉ q.held → ∀ p, (d.k.proc p).state = .unused → (d'.k.proc p).state = .unused) :
    RunSpec d c q d' q' :=
  ⟨held, fun h => absurd h (by rw [h1]; nofun), fun h => absurd h (by rw [h2]; nofun),
    fun h => absurd h (by rw [h3]; nofun), fun h => absurd h h4, unused⟩

theorem RunSpec.locked (hq : Lk.ptable ∈ q.held) : RunSpec d c q d' q' :=
  .plain held h1 h2 h3 h4 fun h => absurd hq h

end

theorem Point.windows_of_idle (h : p.held = []) (k : Kernel n) :
    p.creating = false ∧ p.clocking = false ∧ p.consoling = false ∧ ¬ p.Printing k := by
  cases p
  case printAcquire k => cases k <;> first | exact ⟨rfl, rfl, rfl, id⟩ | cases h
  all_goals first
    | exact ⟨rfl, rfl, rfl, id⟩
    | cases h

theorem RunSpec.idle {q : Ctl} (hq : q.held = []) (hp : p.held = []) : RunSpec d c q d { top := p } := by
  obtain ⟨h1, h2, h3, h4⟩ := Point.windows_of_idle hp d.k
  exact .plain (hp.trans hq.symm) h1 h2 h3 h4 fun _ _ h => h

theorem RunSpec.switch {q : Ctl} (hq : q.held = [.ptable]) (v : Saved) (k : Kernel n) :
    RunSpec d c q (d.switch c v k).1 (d.switch c v k).2 :=
  .locked hq.symm rfl rfl rfl id (by simp [hq])

theorem RunSpec.resume {q : Ctl} (hq : q.held = [.ptable]) (k : Kernel n) :
    RunSpec d c q (d.resume c k).1 (d.resume c k).2 := by
  have hl : Lk.ptable ∈ q.held := by simp [hq]
  unfold Data.resume
  split
  · rename_i p _
    cases (d.saved p).top <;> exact .locked hq.symm rfl rfl rfl id hl
  · exact .locked hq.symm rfl rfl rfl id hl

/-- The rows of `print_info` that print are the used ones from the current one on. -/
theorem RunSpec.infoRow {q : Ctl} {i : Nat} (hq : q.top = .infoRow i) : RunSpec d c q d (q.goto (infoRow d.k i)) := by
  have hh : q.held = [.ptable] := by unfold Ctl.held; rw [hq]; rfl
  have hl : Lk.ptable ∈ q.held := by simp [hh]
  unfold Smp.infoRow
  split
  · rename_i hi
    split
    · refine ⟨hh.symm, nofun, nofun, nofun, fun hp => ?_, fun h => absurd hl h⟩
      obtain ⟨p, hp, hu⟩ := hp
      rw [hq]
      exact ⟨p, by omega, hu⟩
    · rename_i hu
      refine ⟨hh.symm, nofun, nofun, nofun, fun _ => ?_, fun h => absurd hl h⟩
      rw [hq]
      exact ⟨⟨i, hi⟩, le_rfl, hu⟩
  · exact .locked hh.symm rfl rfl rfl id hl

theorem allocScan_unused {p : Slot} (h : allocScan k = some (p, k')) :
    ∃ p, (k.proc p).state = .unused := by
  unfold allocScan at h
  split at h
  · cases h
  · rename_i p hp; exact ⟨p, by simpa using List.find?_some hp⟩

theorem unused_update {g : Slot → Proc} {p : Slot} {v : Proc} (hv : (g p).state = .unused → v.state = .unused)
    (h : (g r).state = .unused) : (update g p v r).state = .unused := by
  by_cases hr : r = p
  · subst hr; rw [update_self]; exact hv h
  · rw [update_of_ne hr]; exact h

theorem unused_timerSlice (h : (k.proc r).state = .unused) :
    ((timerSlice k c).1.proc r).state = .unused := by
  have hs : ((sliceTick k c).proc r).state = .unused := by
    unfold sliceTick
    split
    · split
      · exact unused_update id h
      · exact h
    · exact h
  unfold timerSlice
  simp only
  split
  · exact hs
  · split
    · split
      · split
        · exact unused_update id hs
        · exact hs
      · exact hs
    · exact hs

theorem run_spec [NeZero n] {q : Ctl} {x : Choice} (h : run d c q x = some (d', q')) : RunSpec d c q d' q' := by
  rcases q with ⟨top, below⟩
  cases top
  case ret =>
    simp only [run, runRet] at h
    split at h
    · rename_i b; cases h; exact .idle rfl b.2
    · rename_i y
      split at h
      · cases h
      · cases h; exact .idle rfl (by cases y <;> rfl)
    · cases h
  case schedRun =>
    obtain ⟨k, -, h⟩ := Option.map_eq_some_iff.1 h
    have hs : RunSpec d c ⟨.schedRun, below⟩ (d.resume c k).1 (d.resume c k).2 := .resume rfl k
    rwa [h] at hs
  case allocScan f =>
    simp only [run] at h
    split at h
    · cases h; exact .locked rfl rfl rfl rfl id (.head _)
    · rename_i p k hk
      cases h
      exact ⟨rfl, fun _ => ⟨f, rfl, allocScan_unused hk⟩, nofun, nofun, nofun, fun h => absurd (.head _) h⟩
  case allocInit f p =>
    cases h
    exact .locked rfl rfl rfl rfl id (.tail _ (.head _))
  case allocStack f p =>
    simp only [run, runStack] at h
    split at h
    · split at h
      · cases h
      · cases h; exact .plain rfl rfl rfl rfl id fun _ _ => unused_update fun _ => rfl
    · cases h; exact .plain rfl rfl rfl rfl id fun _ _ h => h
  case copy f p =>
    simp only [run, runCopy] at h
    split at h
    · cases h; exact .plain rfl rfl rfl rfl id fun _ _ h => h
    · split at h
      · cases h; exact .plain rfl rfl rfl rfl id fun _ _ => unused_update fun _ => rfl
      · cases h; exact .plain rfl rfl rfl rfl id fun _ _ => unused_update id
  case runRun f p =>
    obtain ⟨k, -, h⟩ := Option.map_eq_some_iff.1 h
    cases h
    exact .locked rfl rfl rfl rfl id (.head _)
  case secRun y =>
    have hl : Lk.ptable ∈ (Ctl.mk (.secRun y) below).held := List.mem_singleton_self _
    cases y with
    | exit => obtain ⟨k, -, h⟩ := Option.map_eq_some_iff.1 h; cases h; exact .switch rfl _ k
    | wait =>
      obtain ⟨⟨r, k⟩, -, h⟩ := Option.map_eq_some_iff.1 h
      cases r with
      | ret pid => cases h; exact .locked rfl rfl rfl rfl id hl
      | slept => cases h; exact .switch rfl _ k
    | _ => cases h; exact .locked rfl rfl rfl rfl id hl
  case sleepRun w =>
    obtain ⟨k, -, h⟩ := Option.map_eq_some_iff.1 h; cases h; exact .switch rfl _ k
  case wakeRun k =>
    obtain ⟨k', -, h⟩ := Option.map_eq_some_iff.1 h
    cases h
    exact .locked rfl rfl rfl rfl id (.head _)
  case timerTick =>
    cases h; exact ⟨rfl, nofun, fun _ => .inl rfl, nofun, nofun, fun _ _ h => h⟩
  case timerSlice =>
    cases h
    split
    all_goals exact .plain rfl rfl rfl rfl id fun _ _ => unused_timerSlice
  case yieldRun =>
    obtain ⟨k, -, h⟩ := Option.map_eq_some_iff.1 h; cases h; exact .switch rfl _ k
  case sysSleepStart m =>
    cases h; exact .plain rfl rfl rfl rfl id fun _ _ h => h
  case sysSleepLoop t m =>
    cases h
    split
    · rename_i hs
      exact ⟨rfl, nofun, fun _ => .inr ⟨t, m, rfl, hs⟩, nofun, nofun, fun _ _ h => h⟩
    · exact .plain rfl rfl rfl rfl id fun _ _ h => h
  case printRun k =>
    cases x with
    | put gs =>
      simp only [run, runPrint] at h
      split at h
      · cases h
        refine ⟨rfl, nofun, nofun, nofun, fun hp => ?_, fun _ _ h => h⟩
        cases k <;> exact hp
      · cases h
    | _ => cases h
  case infoRow i =>
    cases h; exact .infoRow rfl
  case intrKeys keys dump =>
    cases keys with
    | nil => cases h; exact .plain rfl rfl rfl rfl id fun _ _ h => h
    | cons key rest =>
      simp only [run, runKeys] at h
      split at h
      · rename_i o ho
        cases h
        split
        · rename_i hw
          refine ⟨rfl, nofun, nofun, fun _ => .inl ⟨key, rest, dump, rfl, ?_⟩, nofun, fun _ _ h => h⟩
          unfold wakes
          rw [ho]
          exact hw
        · exact .plain rfl rfl rfl rfl id fun _ _ h => h
      · cases h
  case dumpRow i =>
    cases h
    unfold Smp.dumpRow
    split
    · split
      · exact .plain rfl rfl rfl rfl id fun _ _ h => h
      · split
        all_goals exact .plain rfl rfl rfl rfl id fun _ _ h => h
    · exact .plain rfl rfl rfl rfl id fun _ _ h => h
  case readLoop target m out =>
    simp only [run, runRead] at h
    split at h
    · cases h; exact .plain rfl rfl rfl rfl id fun _ _ h => h
    · rename_i con out' m' he
      cases h
      split
      · exact .plain rfl rfl rfl rfl id fun _ _ h => h
      · rename_i hk
        refine ⟨rfl, nofun, nofun, fun _ => .inr ⟨target, m, out, rfl, ?_⟩, nofun, fun _ _ h => h⟩
        unfold readSleeps
        rw [he]
        simpa using hk
  case otherRun a =>
    cases h
    cases x <;> exact .plain rfl rfl rfl rfl id fun _ _ h => h
  all_goals cases h

/-- What a lock operation does to the windows: one order of each pair starts with an `acquire`. -/
structure LockSpec (p q : Point) : Prop where
  creating : q.creating = false
  clocking : q.clocking = true → p = .timerAcquire
  consoling : q.consoling = false
  printing : ∀ k : Kernel n, q.Printing k → p.Printing k ∨ p = .infoAcquire

theorem LockSpec.outside (h1 : q.creating = false) (h2 : q.clocking = false) (h3 : q.consoling = false)
    (h4 : ∀ k : Kernel n, ¬ q.Printing k) : LockSpec (n := n) p q where
  creating := h1
  clocking h := by
    rw [h2] at h; cases h
  consoling := h3
  printing k h := absurd h (h4 k)

theorem lock_spec (h : p.instr = .acquire l q ∨ p.instr = .release l q) : LockSpec (n := n) p q := by
  cases p
  case timerAcquire => rcases h with h | h <;> cases h; exact ⟨rfl, fun _ => rfl, rfl, nofun⟩
  case infoAcquire => rcases h with h | h <;> cases h; exact ⟨rfl, nofun, rfl, fun _ _ => .inr rfl⟩
  case runRelease f => rcases h with h | h <;> cases f <;> cases h <;> exact .outside rfl rfl rfl fun _ => id
  case sleepReacquire w =>
    rcases h with h | h <;> cases h
    cases w <;> exact .outside rfl rfl rfl fun _ => id
  case wakeRelease k =>
    rcases h with h | h <;> cases h
    cases k <;> exact .outside rfl rfl rfl fun _ => id
  case printAcquire k =>
    rcases h with h | h <;> cases h
    exact ⟨rfl, nofun, rfl, fun _ hp => .inl (by cases k <;> exact hp)⟩
  case printRelease k =>
    rcases h with h | h <;> cases h
    cases k with
    | printInfo i => exact ⟨rfl, nofun, rfl, fun _ _ => .inl trivial⟩
    | procdump i | call => exact .outside rfl rfl rfl fun _ => id
  case intrRelease d =>
    rcases h with h | h <;> cases h
    cases d <;> exact .outside rfl rfl rfl fun _ => id
  all_goals
    rcases h with h | h <;> first
      | (cases h; done)
      | (cases h; exact .outside rfl rfl rfl fun _ => id)

theorem smpStep_cases [NeZero n] (h : smpStep s a = some s') :
    ∃ c, (∀ d, d ≠ c → s'.spin.pc d = s.spin.pc d) ∧
      ((a = .lock c ∧ s'.d = s.d ∧ s.spin.lock code c = some s'.spin ∧
          LockSpec (n := n) (s.spin.pc c).top (s'.spin.pc c).top) ∨
       (∃ x, a = .run c x ∧ RunSpec s.d c (s.spin.pc c) s'.d (s'.spin.pc c) ∧
          s'.spin = s.spin.jump c (s'.spin.pc c)) ∨
       (s'.d = s.d ∧ s'.spin = s.spin.jump c (s'.spin.pc c) ∧ (s.spin.pc c).held = [] ∧ (s'.spin.pc c).held = [])) := by
  have hintr : ∀ c p, p.held = [] → s.interrupt c p = some s' →
      ∃ c, (∀ d, d ≠ c → s'.spin.pc d = s.spin.pc d) ∧
        s'.d = s.d ∧ s'.spin = s.spin.jump c (s'.spin.pc c) ∧ (s.spin.pc c).held = [] ∧ (s'.spin.pc c).held = [] := by
    intro c p hp h
    obtain ⟨q, hq, rfl⟩ := Option.map_eq_some_iff.1 h
    unfold Smp.interrupt at hq
    split at hq
    · rename_i hi
      cases hq
      refine ⟨c, fun d hd => State.pc_jump_of_ne _ _ hd, rfl, ?_, hi.2.2, ?_⟩
      · simp only [State.pc_jump]
      · rw [State.pc_jump]; exact hp
    · cases hq
  cases a with
  | lock c =>
    obtain ⟨t, ht, rfl⟩ := Option.map_eq_some_iff.1 h
    obtain ⟨⟨l, hl⟩, ho⟩ := State.lock_pc ht
    have hl := hl.imp (fun h => (Ctl.instr_acquire h).1) fun h => (Ctl.instr_release h).1
    exact ⟨c, ho, .inl ⟨rfl, rfl, ht, lock_spec hl⟩⟩
  | run c x =>
    obtain ⟨⟨d', q'⟩, hr, rfl⟩ := Option.map_eq_some_iff.1 h
    refine ⟨c, fun d hd => State.pc_jump_of_ne _ _ hd, .inr (.inl ⟨x, rfl, ?_, ?_⟩)⟩
    · simpa only [State.pc_jump] using run_spec hr
    · simp only [State.pc_jump]
  | timer c =>
    obtain ⟨c, ho, hi⟩ := hintr c _ (by split <;> rfl) h
    exact ⟨c, ho, .inr (.inr hi)⟩
  | kbd keys => obtain ⟨c, ho, hi⟩ := hintr 0 _ rfl h; exact ⟨c, ho, .inr (.inr hi)⟩
  | irq c a => obtain ⟨c, ho, hi⟩ := hintr c _ rfl h; exact ⟨c, ho, .inr (.inr hi)⟩

/-! ## Runs -/

section

variable [NeZero n] {types : Fin n → CoreType} {pos : Nat}

theorem owned_boot : Owned code (bootSys types pos).spin := by
  intro l c
  refine ⟨nofun, fun h => ?_⟩
  simp only [bootSys, code, Ctl.held] at h
  split at h <;> cases h

theorem owned_step (ho : Owned code s.spin) (h : smpStep s a = some s') : Owned code s'.spin := by
  obtain ⟨c, -, ⟨-, -, hl, -⟩ | ⟨x, -, hr, hj⟩ | ⟨-, hj, h0, h1⟩⟩ := smpStep_cases h
  · exact ho.lock hl
  · rw [hj]; exact ho.jump hr.held
  · rw [hj]; exact ho.jump (h1.trans h0.symm)

/-- In every run a lock is owned by the CPU that stands between its `acquire` and its `release`. -/
theorem owned_reach {ok : Sys n → SmpAct n → Prop} (hr : Reach (· = bootSys types pos) smpStep ok s) :
    Owned code s.spin :=
  hr.inv (P := fun s => Owned code s.spin) (by rintro _ rfl; exact owned_boot) fun _ _ _ ho _ h => owned_step ho h

/-- The windows of process creation and of the clock. -/
def ClockApart (s : Sys n) : Prop :=
  Apart (fun c => (s.spin.pc c).top.creating = true) fun c => (s.spin.pc c).top.clocking = true

theorem clockApart_step (hi : ClockApart s) (hok : CreationClear s a) (h : smpStep s a = some s') : ClockApart s' := by
  obtain ⟨c, hd, hc⟩ := smpStep_cases h
  refine Apart.step hi (c := c) (fun d hdc => by rw [hd d hdc]; exact id)
    (fun d hdc => by rw [hd d hdc]; exact id) ?_ ?_
  · intro hcr
    rcases hc with ⟨-, -, -, hl⟩ | ⟨x, rfl, hr, -⟩ | ⟨-, -, -, h0⟩
    · rw [hl.creating] at hcr; cases hcr
    · obtain ⟨f, htop, hu⟩ := hr.creating hcr
      simp only [CreationClear, htop, CreationClearAt] at hok
      exact .inr fun d hdc hcl => by rw [hok hu d hdc] at hcl; cases hcl
    · rw [(Point.windows_of_idle h0 s.d.k).1] at hcr; cases hcr
  · intro hcl
    rcases hc with ⟨rfl, -, -, hl⟩ | ⟨x, rfl, hr, -⟩ | ⟨-, -, -, h0⟩
    · have hok := hok (hl.clocking hcl)
      exact .inr fun d hdc hcr => by rw [hok d hdc] at hcr; cases hcr
    · rcases hr.clocking hcl with hcl | ⟨t, m, htop, hs⟩
      · exact .inl hcl
      · simp only [CreationClear, htop, CreationClearAt] at hok
        exact .inr fun d hdc hcr => by rw [hok hs d hdc] at hcr; cases hcr
    · rw [(Point.windows_of_idle h0 s.d.k).2.1] at hcl; cases hcl

/-- The windows of `print_info` and of the console. -/
def PrintApart (s : Sys n) : Prop :=
  Apart (fun c => (s.spin.pc c).top.Printing s.d.k) fun c => (s.spin.pc c).top.consoling = true

theorem printApart_step (ho : Owned code s.spin) (hi : PrintApart s) (hok : PrintClear s a)
    (h : smpStep s a = some s') : PrintApart s' := by
  obtain ⟨c, hd, hc⟩ := smpStep_cases h
  refine Apart.step hi (c := c) (fun d hdc hp => ?_) (fun d hdc => by rw [hd d hdc]; exact id) ?_ ?_
  · -- while a CPU prints it holds `ptable.lock`, so the step of another one creates no process
    rw [hd d hdc] at hp
    rcases hc with ⟨-, e, -⟩ | ⟨x, -, hr, -⟩ | ⟨e, -⟩
    · rwa [e] at hp
    · refine hp.mono (hr.unused fun hl => hdc ?_)
      exact ho.excl hp.held hl
    · rwa [e] at hp
  · intro hp
    rcases hc with ⟨rfl, e, -, hl⟩ | ⟨x, rfl, hr, -⟩ | ⟨-, -, -, h0⟩
    · rw [e] at hp
      rcases hl.printing _ hp with hp | htop
      · exact .inl hp
      · exact .inr fun d hdc hcs => by rw [hok htop d hdc] at hcs; cases hcs
    · exact .inl (hr.printing hp)
    · exact absurd hp (Point.windows_of_idle h0 _).2.2.2
  · intro hcs
    rcases hc with ⟨-, -, -, hl⟩ | ⟨x, rfl, hr, -⟩ | ⟨-, -, -, h0⟩
    · rw [hl.consoling] at hcs; cases hcs
    · rcases hr.consoling hcs with ⟨key, rest, dump, htop, hw⟩ | ⟨target, m, out, htop, hw⟩
      · simp only [PrintClear, htop, PrintClearAt] at hok; exact .inr (hok hw)
      · simp only [PrintClear, htop, PrintClearAt] at hok; exact .inr (hok hw)
    · rw [(Point.windows_of_idle h0 s.d.k).2.2.1] at hcs; cases hcs

theorem idle_boot (c : Fin n) : ((bootSys types pos).spin.pc c).top.held = [] := by
  simp only [bootSys]
  split <;> rfl

/-- In a run in which `allocproc` and the holders of `tickslock` that go on to `ptable.lock` keep out
of each other's way, no CPU holds `ptable.lock` and spins on `tickslock` while another one holds
`tickslock` and spins on `ptable.lock`. -/
theorem no_clock_deadlock (types : Fin n → CoreType) (pos : Nat) (s : Sys n)
    (hr : Reach (· = bootSys types pos) smpStep CreationClear s) : ¬ Crossed code s.spin .ptable .tickslock := by
  have hi : ClockApart s := by
    refine hr.inv (P := ClockApart) ?_ fun _ _ _ hi hok h => clockApart_step hi hok h
    rintro _ rfl a b - ha
    rw [(Point.windows_of_idle (idle_boot a) (bootKernel types)).1] at ha
    cases ha
  refine hi.not_crossed (owned_reach hr) ?_ ?_
  · intro a p hl hp; exact (Point.nested hl (Ctl.instr_acquire hp).1 s.d.k).1 rfl rfl
  · intro b q hl hq; exact (Point.nested hl (Ctl.instr_acquire hq).1 s.d.k).2.1 rfl rfl

end

theorem crossed_of_top {a b : Fin n} (hl : s.spin.owner l = some a) (hp : (s.spin.pc a).top.instr = .acquire m p)
    (hm : s.spin.owner m = some b) (hq : (s.spin.pc b).top.instr = .acquire l q) : Crossed code s.spin l m :=
  ⟨a, b, (s.spin.pc a).goto p, (s.spin.pc b).goto q, hl, by simp only [code, Ctl.instr, hp], hm,
    by simp only [code, Ctl.instr, hq]⟩

/-- `allocproc` and the locked tail of its caller, on CPU `c`. -/
def createRun (c : Fin n) : List (SmpAct n) :=
  [.lock c, .run c .go, .lock c, .run c .go, .lock c, .lock c, .run c .go, .run c .go, .lock c, .run c .go, .lock c]

/-- CPU `c` dispatches a new process into user mode. -/
def dispatchRun (c : Fin n) : List (SmpAct n) := [.lock c, .run c .go, .lock c]

/-- Three CPUs: init comes up on CPU 0 and forks twice, and CPU 2 runs the second child. -/
def twoProcesses : List (SmpAct 3) :=
  createRun 0 ++ dispatchRun 0 ++ .run 0 (.call .fork) :: createRun 0 ++ .run 0 (.call .fork) ::
  createRun 0 ++ dispatchRun 2

/-- The clock interrupt on CPU 0 holds `tickslock`. -/
theorem no_clock_deadlock_tick :
    ∃ s : Sys 3, Reach (· = bootSys mpmainTypes 0) smpStep CreationClear s ∧ s.spin.owner .tickslock = some 0 ∧
      ¬ Crossed code s.spin .ptable .tickslock := by
  have hrun : (runActs (guarded smpStep CreationClear) (bootSys mpmainTypes 0)
      (twoProcesses ++ [.timer 0, .lock 0])).any (fun s => decide (s.spin.owner .tickslock = some 0)) = true := by
    decide +kernel
  obtain ⟨s, hr, hs⟩ := exists_reach_of_guarded_run (· = bootSys mpmainTypes 0) CreationClear rfl _ _ hrun
  exact ⟨s, hr, of_decide_eq_true hs, no_clock_deadlock mpmainTypes 0 s hr⟩

/-- The child forks up to `acquire(&tickslock)` while the clock interrupt on CPU 0 goes up to the
`acquire(&ptable.lock)` of its `wakeup`. -/
theorem fork_clock_deadlock :
    ∃ s : Sys 3, Reachable (· = bootSys mpmainTypes 0) smpStep s ∧ Crossed code s.spin .ptable .tickslock := by
  have hrun : (runActs smpStep (bootSys mpmainTypes 0) (twoProcesses ++
      [.run 2 (.call .fork), .timer 0, .lock 0, .lock 2, .run 2 .go, .run 0 .go])).any (fun s =>
        decide (s.spin.owner .ptable = some 2 ∧ (s.spin.pc 2).top = .allocTicks .fork 3 ∧
          s.spin.owner .tickslock = some 0 ∧ (s.spin.pc 0).top = .wakeAcquire .timer)) = true := by decide +kernel
  obtain ⟨s, hr, hs⟩ := exists_reachable_of_run (· = bootSys mpmainTypes 0) rfl _ _ hrun
  obtain ⟨h1, h2, h3, h4⟩ := of_decide_eq_true hs
  exact ⟨s, hr, crossed_of_top h1 (by rw [h2]; rfl) h3 (by rw [h4]; rfl)⟩

/-- In a run in which `print_info` and the holders of `cons.lock` that go on to `ptable.lock` keep out
of each other's way, no CPU holds `ptable.lock` and spins on `cons.lock` while another one holds
`cons.lock` and spins on `ptable.lock`. -/
theorem no_console_deadlock [NeZero n] (types : Fin n → CoreType) (pos : Nat) (s : Sys n)
    (hr : Reach (· = bootSys types pos) smpStep PrintClear s) : ¬ Crossed code s.spin .ptable .cons := by
  have hi : PrintApart s := by
    refine hr.inv_of (P := PrintApart) (Q := fun s => Owned code s.spin) (fun _ => owned_reach) ?_
      fun _ _ _ ho hi hok h => printApart_step ho hi hok h
    rintro _ rfl a b - ha
    exact absurd ha (Point.windows_of_idle (idle_boot a) _).2.2.2
  refine hi.not_crossed (owned_reach hr) ?_ ?_
  · intro a p hl hp; exact (Point.nested hl (Ctl.instr_acquire hp).1 s.d.k).2.2.1 rfl rfl
  · intro b q hl hq; exact (Point.nested hl (Ctl.instr_acquire hq).1 s.d.k).2.2.2 rfl rfl

/-- `print_info` on CPU 2 holds `ptable.lock`. -/
theorem no_console_deadlock_info :
    ∃ s : Sys 3, Reach (· = bootSys mpmainTypes 0) smpStep PrintClear s ∧ s.spin.owner .ptable = some 2 ∧
      ¬ Crossed code s.spin .ptable .cons := by
  have hrun : (runActs (guarded smpStep PrintClear) (bootSys mpmainTypes 0)
      (twoProcesses ++ [.run 2 (.call .printInfo), .lock 2])).any
      (fun s => decide (s.spin.owner .ptable = some 2)) = true := by decide +kernel
  obtain ⟨s, hr, hs⟩ := exists_reach_of_guarded_run (· = bootSys mpmainTypes 0) PrintClear rfl _ _ hrun
  exact ⟨s, hr, of_decide_eq_true hs, no_console_deadlock mpmainTypes 0 s hr⟩

/-- Enter is pressed while the child is in `print_info`, before it prints the header. -/
theorem info_console_deadlock :
    ∃ s : Sys 3, Reachable (· = bootSys mpmainTypes 0) smpStep s ∧ Crossed code s.spin .ptable .cons := by
  have hrun : (runActs smpStep (bootSys mpmainTypes 0) (twoProcesses ++
      [.run 2 (.call .printInfo), .lock 2, .kbd [newline], .lock 0, .run 0 .go])).any (fun s =>
        decide (s.spin.owner .ptable = some 2 ∧ (s.spin.pc 2).top = .printAcquire (.printInfo 0) ∧
          s.spin.owner .cons = some 0 ∧ (s.spin.pc 0).top = .wakeAcquire (.consoleintr [] false))) = true := by
    decide +kernel
  obtain ⟨s, hr, hs⟩ := exists_reachable_of_run (· = bootSys mpmainTypes 0) rfl _ _ hrun
  obtain ⟨h1, h2, h3, h4⟩ := of_decide_eq_true hs
  exact ⟨s, hr, crossed_of_top h1 (by rw [h2]; rfl) h3 (by rw [h4]; rfl)⟩

end Xv6.Smp
