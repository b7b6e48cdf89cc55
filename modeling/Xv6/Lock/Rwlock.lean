/-
The reader-writer lock of `rwlock.c`, as the four `rwtest` system calls expose it. It is a monitor:
the fields are guarded by `rw->lk`, all waiters sleep on one channel, and the counter of readers is
an `int`. As long as that counter does not overflow no sleeper is stranded, whoever calls what. That
readers and writers exclude each other also needs that a process gives back only a read lock it
has: `rwlock_release_write` checks its caller, `rwlock_release_read` only that there is some reader.
-/
import Xv6.Base.Monitor

namespace Xv6.Lock

open Base Monitor

/-! ## The lock -/

/-- A process, by the pid `allocproc` gave it: `nextpid` starts at 1 and only grows. -/
abbrev Pid := { p : Int // 0 < p }

/-- `struct rwlock`, without its spin lock and its name. -/
structure Rwlock where
  readCount : Int32 := 0
  writer : Bool := false
  writerPid : Int := 0
  deriving DecidableEq, Repr

/-- The four operations. -/
inductive RwOp
  | acquireRead
  | releaseRead
  | acquireWrite
  | releaseWrite
  deriving DecidableEq, Repr

/-- The conditions of the two `while` loops. -/
def Rwlock.waits (rw : Rwlock) : RwOp → Bool
  | .acquireRead => rw.writer
  | .acquireWrite => rw.writer || decide (rw.readCount > 0)
  | .releaseRead | .releaseWrite => false

/-- `rwlock_acquire_read` after its loop. -/
def rwlockAcquireRead (rw : Rwlock) : Rwlock := { rw with readCount := rw.readCount + 1 }

/-- `rwlock_release_read`: the lock after it, and whether it calls `wakeup`. -/
def rwlockReleaseRead (rw : Rwlock) : Option (Rwlock × Bool) :=
  if rw.readCount < 1 then none
  else
    let rw := { rw with readCount := rw.readCount - 1 }
    some (rw, decide (rw.readCount = 0))

/-- `rwlock_acquire_write` after its loop. -/
def rwlockAcquireWrite (rw : Rwlock) (pid : Pid) : Rwlock := { rw with writer := true, writerPid := pid }

def rwlockReleaseWrite (rw : Rwlock) (pid : Pid) : Option (Rwlock × Bool) :=
  if rw.writer = false then none
  else if rw.writerPid ≠ pid then none
  else some ({ rw with writer := false, writerPid := 0 }, true)

/-- The lock with who is in it: a process is a reader from its increment in `rwlock_acquire_read` to
its own decrement in `rwlock_release_read`, once for each, and a writer likewise. -/
structure RwHeld where
  rw : Rwlock := {}
  readers : List Pid := []
  writers : List Pid := []
  deriving DecidableEq, Repr

/-- An operation of process `p` past its loop. -/
def rwBody (p : Pid) (op : RwOp) (d : RwHeld) : Option (RwHeld × Bool) :=
  match op with
  | .acquireRead => some ({ d with rw := rwlockAcquireRead d.rw, readers := p :: d.readers }, false)
  | .releaseRead => (rwlockReleaseRead d.rw).map fun x => ({ d with rw := x.1, readers := d.readers.erase p }, x.2)
  | .acquireWrite => some ({ d with rw := rwlockAcquireWrite d.rw p, writers := p :: d.writers }, false)
  | .releaseWrite => (rwlockReleaseWrite d.rw p).map fun x => ({ d with rw := x.1, writers := d.writers.erase p }, x.2)

/-- `g_rw` and its four system calls. -/
def rwtest : Monitor Pid RwOp RwHeld where
  blocked op d := d.rw.waits op
  body := rwBody

/-- After `rwtestinit`. -/
def rwtestinit (s : State Pid RwOp RwHeld) : Prop := s = .start {}

/-- A process inside `sleep`, called by `op`, with `p->state == SLEEPING`. -/
def Sleeping (s : State Pid RwOp RwHeld) (p : Pid) (op : RwOp) : Prop :=
  s.spin.pc p = .sleepSwitch op ∨ s.spin.pc p = .asleep op

/-- The counter of readers is not incremented at its largest value. -/
def CountInRange (s : State Pid RwOp RwHeld) : Act Pid RwOp → Prop
  | .run p => s.spin.pc p = .body .acquireRead → s.data.rw.readCount ≠ Int32.maxValue
  | _ => True

instance (s : State Pid RwOp RwHeld) : (a : Act Pid RwOp) → Decidable (CountInRange s a)
  | .run _ => inferInstanceAs (Decidable (_ → _))
  | .call _ _ | .lock _ | .stir _ => inferInstanceAs (Decidable True)

/-- A process calls `rwlock_release_read` only with a read lock to give back. -/
def ReleasesOwn (s : State Pid RwOp RwHeld) : Act Pid RwOp → Prop
  | .call p op => op = .releaseRead → p ∈ s.data.readers
  | _ => True

instance (s : State Pid RwOp RwHeld) : (a : Act Pid RwOp) → Decidable (ReleasesOwn s a)
  | .call _ _ => inferInstanceAs (Decidable (_ → _))
  | .run _ | .lock _ | .stir _ => inferInstanceAs (Decidable True)

/-! ## The counter -/

variable {x : Int32}

theorem toInt_succ (h : x ≠ Int32.maxValue) : (x + 1).toInt = x.toInt + 1 := by
  have h1 : x.toInt ≠ 2147483647 := fun e => h (Int32.toInt_inj.1 (e.trans rfl))
  have h2 := Int32.toInt_lt x
  have h3 := Int32.le_toInt x
  rw [Int32.toInt_add, Int32.toInt_one, Int.bmod_eq_of_le (by omega) (by omega)]

theorem toInt_pred (h : 1 ≤ x.toInt) : (x - 1).toInt = x.toInt - 1 := by
  have h2 := Int32.toInt_lt x
  rw [Int32.toInt_sub, Int32.toInt_one, Int.bmod_eq_of_le (by omega) (by omega)]

theorem waits_write (rw : Rwlock) : rw.waits .acquireWrite = true ↔ rw.writer = true ∨ 0 < rw.readCount.toInt := by
  simp only [Rwlock.waits, Bool.or_eq_true, decide_eq_true_eq, gt_iff_lt, Int32.lt_iff_toInt_lt, Int32.toInt_zero]

variable {w : Bool} {p : Pid} {op : RwOp} {d d' : RwHeld}

theorem releaseRead_eq_some (h : rwBody p .releaseRead d = some (d', w)) : 1 ≤ d.rw.readCount.toInt ∧
    d' = { d with rw := { d.rw with readCount := d.rw.readCount - 1 }, readers := d.readers.erase p } ∧
    (w = true ↔ d.rw.readCount.toInt = 1) := by
  obtain ⟨x, hr, he⟩ := Option.map_eq_some_iff.1 h
  obtain ⟨hlt, ⟨⟩⟩ := Option.ite_none_left_eq_some.1 hr
  obtain ⟨rfl, rfl⟩ := Prod.mk.inj he
  have h1 := mt Int32.lt_iff_toInt_lt.2 hlt
  rw [Int32.toInt_one, Int.not_lt] at h1
  refine ⟨h1, rfl, ?_⟩
  rw [decide_eq_true_eq, ← Int32.toInt_inj, Int32.toInt_zero]
  simp only
  rw [toInt_pred h1]
  omega

theorem releaseWrite_eq_some (h : rwBody p .releaseWrite d = some (d', w)) : d.rw.writer = true ∧ d.rw.writerPid = p ∧
    d' = { d with rw := { d.rw with writer := false, writerPid := 0 }, writers := d.writers.erase p } ∧ w = true := by
  obtain ⟨x, hr, he⟩ := Option.map_eq_some_iff.1 h
  obtain ⟨hw, hr⟩ := Option.ite_none_left_eq_some.1 hr
  obtain ⟨hp, ⟨⟩⟩ := Option.ite_none_left_eq_some.1 hr
  obtain ⟨rfl, rfl⟩ := Prod.mk.inj he
  exact ⟨by simpa using hw, not_not.1 hp, rfl, rfl⟩

/-! ## No stranded sleeper -/

/-- The fields fit together. -/
structure RwWf (rw : Rwlock) : Prop where
  solo : rw.writer = true → rw.readCount.toInt = 0
  nonneg : 0 ≤ rw.readCount.toInt
  pid : rw.writer = false ↔ rw.writerPid = 0

theorem rwWf_init : RwWf {} := by
  constructor
  · intro h; cases h
  · decide
  · exact ⟨fun _ => rfl, fun _ => rfl⟩

theorem rwBody_wf (hwf : RwWf d.rw) (hpass : d.rw.waits op = false)
    (hov : op = .acquireRead → d.rw.readCount ≠ Int32.maxValue) (h : rwBody p op d = some (d', w)) :
    RwWf d'.rw ∧ (w = false → ∀ o, d.rw.waits o = true → d'.rw.waits o = true) := by
  have hn := hwf.nonneg
  cases op with
  | acquireRead =>
    obtain ⟨rfl, rfl⟩ := Prod.mk.inj (Option.some.inj h)
    have hw : d.rw.writer = false := hpass
    have hc := toInt_succ (hov rfl)
    refine ⟨⟨fun h => ?_, ?_, hwf.pid⟩, fun _ o ho => ?_⟩
    · rw [show d.rw.writer = true from h] at hw; cases hw
    · show 0 ≤ (d.rw.readCount + 1).toInt; omega
    · cases o with
      | acquireRead => exact ho
      | acquireWrite =>
        rw [waits_write]
        refine .inr ?_
        show 0 < (d.rw.readCount + 1).toInt
        omega
      | releaseRead | releaseWrite => cases ho
  | releaseRead =>
    obtain ⟨h1, rfl, hw'⟩ := releaseRead_eq_some h
    have hc := toInt_pred h1
    refine ⟨⟨fun h => ?_, ?_, hwf.pid⟩, fun hf o ho => ?_⟩
    · have := hwf.solo h; omega
    · show 0 ≤ (d.rw.readCount - 1).toInt; omega
    · have hne : d.rw.readCount.toInt ≠ 1 := fun e => by rw [hw'.2 e] at hf; cases hf
      cases o with
      | acquireRead => exact ho
      | acquireWrite =>
        rw [waits_write]
        refine .inr ?_
        show 0 < (d.rw.readCount - 1).toInt
        omega
      | releaseRead | releaseWrite => cases ho
  | acquireWrite =>
    obtain ⟨rfl, rfl⟩ := Prod.mk.inj (Option.some.inj h)
    have hno : ¬ (d.rw.writer = true ∨ 0 < d.rw.readCount.toInt) := by
      rw [← waits_write, hpass]; exact Bool.false_ne_true
    refine ⟨⟨fun _ => ?_, hn, ?_⟩, fun _ o ho => ?_⟩
    · show d.rw.readCount.toInt = 0
      by_contra hne
      exact hno (.inr (by omega))
    · constructor
      · intro h; cases h
      · intro h
        have := p.2
        have h : p.1 = 0 := h
        omega
    · cases o with
      | acquireRead => rfl
      | acquireWrite => exact (waits_write _).2 (.inl rfl)
      | releaseRead | releaseWrite => cases ho
  | releaseWrite =>
    obtain ⟨-, -, rfl, rfl⟩ := releaseWrite_eq_some h
    refine ⟨⟨fun h => ?_, hn, ⟨fun _ => rfl, fun _ => rfl⟩⟩, fun hf => ?_⟩
    · cases h
    · cases hf

variable {s : State Pid RwOp RwHeld}

/-- In a run whose counter stays in range the lock is well-formed and settled. -/
theorem rw_reach {ok : State Pid RwOp RwHeld → Act Pid RwOp → Prop} (hok : ∀ s a, ok s a → CountInRange s a)
    (hr : Reach rwtestinit rwtest.step ok s) :
    Spin.Owned code s.spin ∧ Settled rwtest s ∧ RwWf s.data.rw := by
  refine reach_settled (I := fun d => RwWf d.rw) ?_ ?_ hr
  · rintro s rfl; exact ⟨{}, rfl, rwWf_init⟩
  · intro s p op hwf hs hp hpass
    have hov : op = .acquireRead → s.data.rw.readCount ≠ Int32.maxValue := by
      rintro rfl; exact hok _ _ hs hp
    constructor
    · intro d' hb; exact (rwBody_wf hwf hpass hov hb).2 rfl
    · intro d' w hb; exact (rwBody_wf hwf hpass hov hb).1

/-- In every run in which the counter of readers does not overflow, whatever processes call what:
while `rw->lk` is free the fields fit together, a reader asleep waits for a writer, and a writer
asleep for a writer or a reader. -/
theorem rwlock_no_stranded_sleeper (s : State Pid RwOp RwHeld) (hr : Reach rwtestinit rwtest.step CountInRange s)
    (hfree : s.spin.owner .lk = none) :
    (s.data.rw.writer = true → s.data.rw.readCount = 0) ∧ 0 ≤ s.data.rw.readCount ∧
    (s.data.rw.writer = false ↔ s.data.rw.writerPid = 0) ∧
    (∀ p, Sleeping s p .acquireRead → s.data.rw.writer = true) ∧
    (∀ p, Sleeping s p .acquireWrite → s.data.rw.writer = true ∨ s.data.rw.readCount > 0) := by
  obtain ⟨ho, hs, hwf⟩ := rw_reach (fun _ _ h => h) hr
  have hsleep : ∀ p op, Sleeping s p op → s.data.rw.waits op = true := by
    rintro p op (h | h)
    · exact hs.blocked ho hfree (by rw [h]; rfl)
    · exact hs.blocked ho hfree (by rw [h]; rfl)
  refine ⟨fun h => ?_, ?_, hwf.pid, fun p h => hsleep p _ h, fun p h => ?_⟩
  · exact Int32.toInt_inj.1 (hwf.solo h)
  · exact Int32.le_iff_toInt_le.2 hwf.nonneg
  · rcases (waits_write _).1 (hsleep p _ h) with h | h
    · exact .inl h
    · exact .inr (Int32.lt_iff_toInt_lt.2 h)

/-- Two processes. -/
def pid1 : Pid := ⟨1, by decide⟩
def pid2 : Pid := ⟨2, by decide⟩

/-- One call of an operation that does not wait and wakes nobody. -/
def callActs (p : Pid) (op : RwOp) : List (Act Pid RwOp) := [.call p op, .lock p, .run p, .run p, .lock p]

/-- A call of an operation that has to wait, up to its sleep. -/
def sleepActs (p : Pid) (op : RwOp) : List (Act Pid RwOp) :=
  [.call p op, .lock p, .run p, .lock p, .lock p, .run p, .lock p]

/-- A call of an operation that wakes the sleepers. -/
def wakeActs (p : Pid) (op : RwOp) : List (Act Pid RwOp) :=
  [.call p op, .lock p, .run p, .run p, .lock p, .run p, .lock p, .lock p]

/-- A writer goes to sleep behind a reader. -/
theorem rwlock_no_stranded_sleeper_writer :
    ∃ s, Reach rwtestinit rwtest.step CountInRange s ∧ s.spin.owner .lk = none ∧ Sleeping s pid2 .acquireWrite ∧
      (s.data.rw.writer = true ∨ s.data.rw.readCount > 0) := by
  have hrun : (runActs (guarded rwtest.step CountInRange) (.start {}) (callActs pid1 .acquireRead ++
      sleepActs pid2 .acquireWrite)).any
      (fun s => decide (s.spin.owner .lk = none ∧ s.spin.pc pid2 = .asleep .acquireWrite)) = true := by decide +kernel
  obtain ⟨s, hr, hs⟩ := exists_reach_of_guarded_run rwtestinit CountInRange rfl _ _ hrun
  obtain ⟨hfree, hp⟩ := of_decide_eq_true hs
  have hsleep : Sleeping s pid2 .acquireWrite := .inr hp
  exact ⟨s, hr, hfree, hsleep, (rwlock_no_stranded_sleeper s hr hfree).2.2.2.2 pid2 hsleep⟩

theorem runActs_acquireRead (p : Pid) (d : RwHeld) (hw : d.rw.writer = false) :
    runActs rwtest.step (.start d) (callActs p .acquireRead) =
      some (.start { d with rw := rwlockAcquireRead d.rw, readers := p :: d.readers }) := by
  simp [callActs, runActs, Monitor.step, Monitor.run, State.start, State.jump, Spin.State.lock, Spin.State.jump, code,
    instr, rwtest, Rwlock.waits, hw, rwBody, Function.update_idem]

theorem reachable_readers (p : Pid) (n : Nat) :
    ∃ d : RwHeld, Reachable rwtestinit rwtest.step (.start d) ∧ d.rw = { readCount := Int32.ofNat n } := by
  induction n with
  | zero => exact ⟨{}, .init rfl, rfl⟩
  | succ n ih =>
    obtain ⟨d, hr, hd⟩ := ih
    refine ⟨_, reach_runActs _ (fun _ _ _ _ hs => ⟨trivial, hs⟩) hr (runActs_acquireRead p d (by rw [hd])), ?_⟩
    rw [hd]
    simp [rwlockAcquireRead]

/-- After 2^31 read locks the counter is negative, with `rw->lk` free. -/
theorem read_count_overflows : ∃ s : State Pid RwOp RwHeld, Reachable rwtestinit rwtest.step s ∧
    s.spin.owner .lk = none ∧ ¬ 0 ≤ s.data.rw.readCount := by
  obtain ⟨d, hr, hd⟩ := reachable_readers pid1 (2 ^ 31)
  refine ⟨_, hr, rfl, ?_⟩
  show ¬ 0 ≤ d.rw.readCount
  rw [hd]
  decide

/-! ## Exclusion -/

/-- The fields count who is in. -/
structure RwCounts (d : RwHeld) : Prop where
  count : d.rw.readCount.toInt = d.readers.length
  out : d.rw.writer = false → d.writers = []
  only : d.rw.writer = true → ∃ q : Pid, d.writers = [q] ∧ d.rw.writerPid = q

theorem rwCounts_init : RwCounts {} := by
  refine ⟨rfl, fun _ => rfl, fun h => ?_⟩
  cases h

theorem rwBody_counts (hc : RwCounts d) (hpass : d.rw.waits op = false)
    (hov : op = .acquireRead → d.rw.readCount ≠ Int32.maxValue) (hown : op = .releaseRead → p ∈ d.readers)
    (h : rwBody p op d = some (d', w)) : RwCounts d' := by
  cases op with
  | acquireRead =>
    obtain ⟨rfl, rfl⟩ := Prod.mk.inj (Option.some.inj h)
    refine ⟨?_, hc.out, hc.only⟩
    show (d.rw.readCount + 1).toInt = ((p :: d.readers).length : Nat)
    rw [toInt_succ (hov rfl), hc.count, List.length_cons]
    omega
  | releaseRead =>
    obtain ⟨h1, rfl, -⟩ := releaseRead_eq_some h
    refine ⟨?_, hc.out, hc.only⟩
    show (d.rw.readCount - 1).toInt = ((d.readers.erase p).length : Nat)
    have hpos := List.length_pos_of_mem (hown rfl)
    rw [toInt_pred h1, hc.count, List.length_erase_of_mem (hown rfl)]
    omega
  | acquireWrite =>
    obtain ⟨rfl, rfl⟩ := Prod.mk.inj (Option.some.inj h)
    have hno : d.rw.writer = false := by
      have hpass : (d.rw.writer || decide (d.rw.readCount > 0)) = false := hpass
      exact (Bool.or_eq_false_iff.1 hpass).1
    refine ⟨hc.count, fun h => ?_, fun _ => ⟨p, ?_, rfl⟩⟩
    · cases h
    · show p :: d.writers = [p]; rw [hc.out hno]
  | releaseWrite =>
    obtain ⟨hw, hpid, rfl, -⟩ := releaseWrite_eq_some h
    refine ⟨hc.count, fun _ => ?_, fun h => ?_⟩
    · obtain ⟨q, hq, hqpid⟩ := hc.only hw
      obtain rfl : p = q := Subtype.ext (hpid.symm.trans hqpid)
      show d.writers.erase p = []
      rw [hq, List.erase_cons_head]
    · cases h

theorem rwBody_readers {q : Pid} (hne : q ≠ p) (h : rwBody q op d = some (d', w)) (hp : p ∈ d.readers) :
    p ∈ d'.readers := by
  cases op with
  | acquireRead =>
    obtain ⟨rfl, rfl⟩ := Prod.mk.inj (Option.some.inj h); exact List.mem_cons_of_mem q hp
  | releaseRead =>
    obtain ⟨-, rfl, -⟩ := releaseRead_eq_some h; exact (List.mem_erase_of_ne (Ne.symm hne)).2 hp
  | acquireWrite => obtain ⟨rfl, rfl⟩ := Prod.mk.inj (Option.some.inj h); exact hp
  | releaseWrite => obtain ⟨-, -, rfl, -⟩ := releaseWrite_eq_some h; exact hp

/-- The steps keep the counter in range, and nobody gives back a read lock without having one. -/
def Rightful (s : State Pid RwOp RwHeld) (a : Act Pid RwOp) : Prop := CountInRange s a ∧ ReleasesOwn s a

instance (s : State Pid RwOp RwHeld) (a : Act Pid RwOp) :
    Decidable (Rightful s a) := inferInstanceAs (Decidable (_ ∧ _))

/-- In a rightful run the fields count who is in, and whoever is in `rwlock_release_read` before its
decrement has a read lock. -/
theorem rwCounts_reach (hr : Reach rwtestinit rwtest.step Rightful s) :
    RwCounts s.data ∧ ∀ p op, (s.spin.pc p).runs = some op → op = .releaseRead → p ∈ s.data.readers := by
  refine hr.inv_of (P := fun s => RwCounts s.data ∧
      ∀ p op, (s.spin.pc p).runs = some op → op = .releaseRead → p ∈ s.data.readers)
    (Q := fun s => Settled rwtest s) (fun s hs => (rw_reach (fun _ _ h => h.1) hs).2.1) ?_ ?_
  · rintro s rfl
    refine ⟨rwCounts_init, fun p op h => ?_⟩
    cases h
  · rintro s a s' hset ⟨hc, hp⟩ ⟨hok, hown⟩ hs
    constructor
    · rcases step_cases hs with ⟨p, op, w, rfl, hpc, hb, -⟩ | ⟨p, rfl, -, rfl⟩ | ⟨hd, -⟩
      · refine rwBody_counts hc (hset.passed p op hpc) ?_ ?_ hb
        · rintro rfl; exact hok hpc
        · exact hp p op (by rw [hpc]; rfl)
      · exact hc
      · rw [hd]; exact hc
    · refine promised_step (R := fun p op d => op = .releaseRead → p ∈ d.readers) hp hs ?_ ?_
      · rintro p op rfl; exact hown
      · intro p q op o d w hne hb h hop; exact rwBody_readers hne hb (h hop)

/-- In every rightful run a writer excludes the readers. -/
theorem rwlock_excludes (s : State Pid RwOp RwHeld) (hr : Reach rwtestinit rwtest.step Rightful s) (p q : Pid)
    (hp : p ∈ s.data.writers) : q ∉ s.data.readers := by
  obtain ⟨hc, -⟩ := rwCounts_reach hr
  obtain ⟨-, -, hwf⟩ := rw_reach (fun _ _ h => h.1) hr
  have hw : s.data.rw.writer = true := by
    by_contra hne
    rw [hc.out (by simpa using hne)] at hp
    cases hp
  have hlen := hc.count
  rw [hwf.solo hw] at hlen
  have hnil : s.data.readers = [] := List.eq_nil_of_length_eq_zero (by omega)
  rw [hnil]
  exact List.not_mem_nil

/-- A reader comes and goes, then a writer comes. -/
theorem rwlock_excludes_turns :
    ∃ s, Reach rwtestinit rwtest.step Rightful s ∧ pid2 ∈ s.data.writers ∧ pid1 ∉ s.data.readers := by
  have hrun : (runActs (guarded rwtest.step Rightful) (.start {}) (callActs pid1 .acquireRead ++
      wakeActs pid1 .releaseRead ++ callActs pid2 .acquireWrite)).any (fun s => decide (pid2 ∈ s.data.writers)) =
        true := by decide +kernel
  obtain ⟨s, hr, hs⟩ := exists_reach_of_guarded_run rwtestinit Rightful rfl _ _ hrun
  exact ⟨s, hr, of_decide_eq_true hs, rwlock_excludes s hr pid2 pid1 (of_decide_eq_true hs)⟩

/-- A process that holds nothing gives back the read lock of another one, and a writer comes in
beside that reader: both are past their acquisition and outside the lock's code. -/
theorem stolen_read_lock : ∃ s, Reachable rwtestinit rwtest.step s ∧ pid1 ∈ s.data.readers ∧ pid2 ∈ s.data.writers ∧
    s.spin.pc pid1 = .idle ∧ s.spin.pc pid2 = .idle := by
  have hrun : (runActs rwtest.step (.start {}) (callActs pid1 .acquireRead ++
      wakeActs pid2 .releaseRead ++ callActs pid2 .acquireWrite)).any (fun s => decide (pid1 ∈ s.data.readers ∧
        pid2 ∈ s.data.writers ∧ s.spin.pc pid1 = .idle ∧ s.spin.pc pid2 = .idle)) = true := by decide +kernel
  obtain ⟨s, hr, hs⟩ := exists_reachable_of_run rwtestinit rfl _ _ hrun
  exact ⟨s, hr, of_decide_eq_true hs⟩

end Xv6.Lock
