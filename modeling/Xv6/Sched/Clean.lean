/-
A new process starts clean. `wait` resets the fields of the slot it frees, `allocproc` and the error
paths of `fork` leave `killed` and `parent` alone, and `kill` marks the first slot with the pid it is
given, whatever its state. So an `UNUSED` slot carries no mark and no parent as long as `kill` meets
neither an `UNUSED` nor an `EMBRYO` slot; pid 0 names every slot never used.
-/
import Xv6.Sched.Lifecycle

namespace Xv6.Sched

open Base

variable {n : Nat} {s s' : Kernel n} {b : Bool} {q : Fin n → List Slot} {pid : Int}

/-! ## Fields of the table after a change -/

namespace Life

variable (t : Life) (p r : Slot)

@[simp] theorem mod_self (f : Entry → Entry) : (t.mod p f).entry p = f (t.entry p) := by simp [mod]

theorem mod_of_ne (f : Entry → Entry) (h : r ≠ p) : (t.mod p f).entry r = t.entry r := by simp [mod, h]

theorem setFork_fork (pc : ForkPc) : (t.setFork p pc).fork r = if r = p then pc else t.fork r := by
  simp [setFork, Function.update_apply]

variable (W : Slot → Prop) [DecidablePred W]

theorem wake_rest : ((t.wake W).entry r).killed = (t.entry r).killed ∧ ((t.wake W).entry r).pid = (t.entry r).pid ∧
    ((t.wake W).entry r).chan = (t.entry r).chan ∧ ((t.wake W).entry r).ctime = (t.entry r).ctime ∧
    ((t.wake W).entry r).sliceTicks = (t.entry r).sliceTicks := by
  simp only [wake]
  split <;> exact ⟨rfl, rfl, rfl, rfl, rfl⟩

theorem wake_state : ((t.wake W).entry r).state = (t.entry r).state ∨
    (t.entry r).state = .sleeping ∧ W r ∧ ((t.wake W).entry r).state = .runnable := by
  simp only [wake]
  split
  · rename_i h; exact .inr ⟨h.1, h.2, rfl⟩
  · exact .inl rfl

end Life

/-! ## Slots under construction -/

/-- What `fork` and `userinit` build is an `EMBRYO` with one builder. -/
structure Built (t : Life) : Prop where
  embryo : ∀ p k, (t.fork p).np = some k → (t.entry k).state = .embryo
  one : ∀ p r k, (t.fork p).np = some k → (t.fork r).np = some k → p = r
  boot : ∀ k, t.boot = some k → (t.entry k).state = .embryo
  apart : ∀ p k, (t.fork p).np = some k → t.boot ≠ some k

theorem Inv.built (h : Inv b s q) : Built (life s) :=
  ⟨fun p k hk => h.embryo k (.inr ⟨p, hk⟩), h.buildOne, fun k hk => h.embryo k (.inl hk), h.buildBoot⟩

/-! ## Clean slots -/

/-- A slot without a process, or with one not started, is not marked; one without a process has no
parent. -/
structure Clean (t : Life) : Prop where
  killed : ∀ k, (t.entry k).state = .unused ∨ (t.entry k).state = .embryo → (t.entry k).killed = false
  parent : ∀ k, (t.entry k).state = .unused → (t.entry k).parent = none
  fresh : ∀ p k, t.fork p = .allocated k → (t.entry k).parent = none

variable {t t' : Life} {p k : Slot}

theorem Clean.mod (h : Clean t) {f : Entry → Entry}
    (h1 : (f (t.entry k)).state = .unused ∨ (f (t.entry k)).state = .embryo → (f (t.entry k)).killed = false)
    (h2 : (f (t.entry k)).state = .unused → (f (t.entry k)).parent = none)
    (h3 : ∀ p, t.fork p = .allocated k → (f (t.entry k)).parent = none) : Clean (t.mod k f) := by
  refine ⟨fun r => ?_, fun r => ?_, fun p r hr => ?_⟩
  all_goals
    by_cases e : r = k
    · subst e
      rw [Life.mod_self]
      first | exact h1 | exact h2 | exact h3 p hr
    · rw [Life.mod_of_ne _ _ _ _ e]
      first | exact h.killed r | exact h.parent r | exact h.fresh p r hr

theorem Clean.mod_started (h : Clean t) {f : Entry → Entry} (h1 : (f (t.entry k)).state ≠ .unused)
    (h2 : (f (t.entry k)).state ≠ .embryo) (h3 : (f (t.entry k)).parent = (t.entry k).parent) : Clean (t.mod k f) :=
  h.mod (fun hs => absurd hs (not_or.2 ⟨h1, h2⟩)) (fun hs => absurd hs h1) fun p hp => h3.trans (h.fresh p k hp)

theorem Clean.setFork (h : Clean t) {pc : ForkPc} (hpc : ∀ k, pc = .allocated k → (t.entry k).parent = none) :
    Clean (t.setFork p pc) := by
  refine ⟨h.killed, h.parent, fun r k hr => ?_⟩
  rw [Life.setFork_fork] at hr
  split at hr
  · exact hpc k hr
  · exact h.fresh r k hr

theorem Clean.alloc (h : Clean t) (hk : (t.entry k).state = .unused) : Clean (t.alloc k) := by
  have h1 := h.mod (k := k)
    (f := fun e => { e with state := .embryo, pid := t.nextpid, ctime := t.ticks, sliceTicks := 0 })
    (fun _ => h.killed k (.inl hk)) (fun hs => by cases hs) (fun _ _ => h.parent k hk)
  exact ⟨h1.killed, h1.parent, h1.fresh⟩

theorem Clean.wake (h : Clean t) (W : Slot → Prop) [DecidablePred W] : Clean (t.wake W) := by
  have hst : ∀ k st, st ≠ .runnable → ((t.wake W).entry k).state = st → (t.entry k).state = st := by
    intro k st hne hk
    rcases t.wake_state k W with e | ⟨-, -, e⟩
    · rw [← e]; exact hk
    · exact absurd (hk.symm.trans e) hne
  refine ⟨fun k hk => ?_, fun k hk => ?_, fun p k hp => ?_⟩
  · rw [(t.wake_rest k W).1]
    exact h.killed k (hk.imp (hst k _ (by decide)) (hst k _ (by decide)))
  · rw [Life.wake_parent]; exact h.parent k (hst k _ (by decide) hk)
  · rw [Life.wake_parent]; exact h.fresh p k hp

theorem Clean.orphan (h : Clean t) (p : Slot) : Clean (t.orphan p) := by
  have hnone : ∀ k, (t.entry k).parent = none → ((t.orphan p).entry k).parent = none := by
    intro k hk; simp [Life.orphan, hk]
  exact ⟨h.killed, fun k hk => hnone k (h.parent k hk), fun r k hr => hnone k (h.fresh r k hr)⟩

/-- One event keeps the slots clean, unless it is the `kill` of a slot without a started process. -/
theorem clean_fire (hb : Built t) (h : Clean t) {e : Event}
    (hk : ∀ k, e = .kill k → (t.entry k).state ≠ .unused ∧ (t.entry k).state ≠ .embryo) (hs : fire t e = some t') :
    Clean t' := by
  cases e with
  | quiet | childless _ => cases hs; exact h
  | tick => cases hs; exact ⟨h.killed, h.parent, h.fresh⟩
  | userinit k =>
    obtain ⟨⟨-, hu⟩, ⟨⟩⟩ := Option.ite_none_right_eq_some.1 hs
    have h1 := h.alloc hu
    exact ⟨h1.killed, h1.parent, h1.fresh⟩
  | start k =>
    obtain ⟨-, ⟨⟩⟩ := Option.ite_none_right_eq_some.1 hs
    have h1 := h.mod_started (k := k) (f := fun e => { e with state := .runnable }) (by simp) (by simp) rfl
    exact ⟨h1.killed, h1.parent, h1.fresh⟩
  | alloc p k =>
    obtain ⟨⟨-, hu⟩, ⟨⟩⟩ := Option.ite_none_right_eq_some.1 hs
    refine (h.alloc hu).setFork fun r hr => ?_
    cases hr
    simp only [Life.alloc, Life.mod_self]
    exact h.parent k hu
  | fail p k =>
    obtain ⟨hf, ⟨⟩⟩ := Option.ite_none_right_eq_some.1 hs
    have he := hb.embryo p k (by rw [hf]; rfl)
    exact (h.setFork (by simp)).mod (fun _ => h.killed k (.inr he)) (fun _ => h.fresh p k hf)
      (fun _ _ => h.fresh p k hf)
  | copy p k =>
    obtain ⟨hf, ⟨⟩⟩ := Option.ite_none_right_eq_some.1 hs
    have he := hb.embryo p k (by rw [hf]; rfl)
    -- the builder has moved on, and there is no other
    show Clean ((t.setFork p (.copied k)).mod k fun e => { e with parent := some p })
    refine (h.setFork (by simp)).mod (fun _ => h.killed k (.inr he)) (fun hs => ?_) fun r hr => ?_
    · exact absurd (he.symm.trans hs) (by decide)
    · rw [Life.setFork_fork] at hr
      split at hr
      · cases hr
      · exact absurd (hb.one r p k (by rw [hr]; rfl) (by rw [hf]; rfl)) ‹_›
  | run p k =>
    obtain ⟨-, ⟨⟩⟩ := Option.ite_none_right_eq_some.1 hs
    exact (h.setFork (by simp)).mod_started (by simp) (by simp) rfl
  | dispatch p | yield p | sleep p _ | doze p =>
    obtain ⟨-, ⟨⟩⟩ := Option.ite_none_right_eq_some.1 hs
    exact h.mod_started (by simp) (by simp) rfl
  | wakeup chan => cases hs; exact h.wake _
  | kill k =>
    cases hs
    obtain ⟨hu, he⟩ := hk k rfl
    refine h.mod_started ?_ ?_ rfl
    · simp only; split
      · simp
      · exact hu
    · simp only; split
      · simp
      · exact he
  | exit p =>
    obtain ⟨-, ⟨⟩⟩ := Option.ite_none_right_eq_some.1 hs
    exact ((h.wake _).orphan p).mod_started (by simp) (by simp) rfl
  | reap p k =>
    obtain ⟨-, ⟨⟩⟩ := Option.ite_none_right_eq_some.1 hs
    exact h.mod (fun _ => rfl) (fun _ => rfl) fun _ _ => rfl
  | slice p =>
    obtain ⟨hr, ⟨⟩⟩ := Option.ite_none_right_eq_some.1 hs
    exact h.mod_started (by simp [hr]) (by simp [hr]) rfl

/-! ## Runs -/

/-- The first slot with that pid, if there is one, holds a process that has started. -/
def Started (s : Kernel n) (pid : Int) : Prop :=
  ∀ k, killTarget s pid = some k → (s.proc k).state ≠ .unused ∧ (s.proc k).state ≠ .embryo

/-- The step is no `kill` of a slot without a started process. -/
def KillsStarted (s : Kernel n) (a : Act n) : Prop := ∀ c pid, a = .kill c pid → Started s pid

instance (s : Kernel n) (pid : Int) : Decidable (Started s pid) := inferInstanceAs (Decidable (∀ _, _ → _ ∧ _))

instance (s : Kernel n) (a : Act n) : Decidable (KillsStarted s a) :=
  match a with
  | .kill c pid => decidable_of_iff (Started s pid) ⟨fun h _ _ he => by cases he; exact h, fun h => h c pid rfl⟩
  | .userinitAlloc | .userinitRun | .forkAlloc _ | .forkFail _ | .forkCopy _ | .forkRun _ | .scheduler _ | .yield _
  | .sleep _ _ | .wakeup _ | .exit _ | .wait _ | .loadBalance _ | .tick | .slice _ | .startMeasure | .endMeasure =>
    isTrue fun _ _ he => by cases he

theorem killTarget_pid (h : killTarget s pid = some k) : (s.proc k).pid = pid := by
  simpa using List.find?_some h

theorem killTarget_none (h : killTarget s pid = none) : kill s pid = (-1, s) := by
  unfold kill; rw [h]

variable [NeZero n] {types : Fin n → CoreType} {c : Fin n}

theorem event_kill {a : Act n} (he : event s a = .kill k) : ∃ c pid, a = .kill c pid ∧ killTarget s pid = some k := by
  cases a with
  | kill c pid =>
    cases hk : killTarget s pid with
    | none => simp only [event, hk, Option.elim] at he; cases he
    | some r => simp only [event, hk, Option.elim] at he; cases he; exact ⟨c, pid, rfl, hk⟩
  | _ =>
    -- no other step is the event of a `kill`
    exfalso
    simp only [event, forkEvent, Option.elim] at he
    repeat' split at he
    all_goals first | cases he | skip
    all_goals
      simp only [waitEvent] at he
      repeat' split at he
      all_goals cases he

theorem clean_reach (hr : Reach (· = bootKernel types) step KillsStarted s) : Clean (life s) := by
  refine Reach.inv_of (P := fun s => Clean (life s)) (Q := fun s => ∃ q, Inv false s q) ?_ ?_ ?_ hr
  · intro s hr; exact inv_reach nofun hr
  · rintro s rfl; exact ⟨fun _ _ => rfl, fun _ _ => rfl, fun _ _ h => by cases h⟩
  · rintro s a s' ⟨q, hI⟩ h hok hs
    refine clean_fire hI.built h (fun k he => ?_) (step_life hI hs)
    obtain ⟨c, pid, rfl, hk⟩ := event_kill he
    exact hok c pid rfl k hk

theorem forkRun_killed (h : Inv b s q) (hp : (s.cpus c).proc = some p) (hf : s.fork p = .copied k)
    (hs : step s (.forkRun c) = some s') :
    (s'.proc k).state = .runnable ∧ (s'.proc k).killed = (s.proc k).killed := by
  have hl := step_life h hs
  have hf' : (life s).fork p = .copied k := hf
  simp only [event, forkEvent, hp, hf, ForkPc.np, Option.elim, fire, if_pos hf', Option.some.injEq] at hl
  have he : ((life s').entry k) = { (life s).entry k with state := .runnable } := by
    rw [← hl, Life.mod_self]; rfl
  exact ⟨congrArg Entry.state he, congrArg Entry.killed he⟩

/-- In a run in which `kill` meets no `UNUSED` and no `EMBRYO` slot every `UNUSED` slot is unmarked and
without a parent, the process `fork` returns is not marked, and `kill` returns 0 only for the pid of a
process and else changes nothing. A `kill` that meets such a slot returns 0 and marks it as it is, and
`fork` returns a process with the mark its slot has. -/
theorem new_process_clean (types : Fin n → CoreType) :
    (∀ s, Reach (· = bootKernel types) step KillsStarted s →
      (∀ k, (s.proc k).state = .unused → (s.proc k).killed = false ∧ (s.proc k).parent = none) ∧
      (∀ c p k s', (s.cpus c).proc = some p → s.fork p = .copied k → step s (.forkRun c) = some s' →
        (s'.proc k).state = .runnable ∧ (s'.proc k).killed = false) ∧
      ∀ pid, Started s pid →
        ((kill s pid).1 = 0 → ∃ k, (s.proc k).state ≠ .unused ∧ (s.proc k).pid = pid) ∧
        ((∀ k, (s.proc k).state ≠ .unused → (s.proc k).pid ≠ pid) → kill s pid = (-1, s))) ∧
    (∀ s, Reachable (· = bootKernel types) step s →
      (∀ pid k, killTarget s pid = some k → (s.proc k).state = .unused ∨ (s.proc k).state = .embryo →
        (kill s pid).1 = 0 ∧ ((kill s pid).2.proc k).state = (s.proc k).state ∧ ((kill s pid).2.proc k).killed = true) ∧
      ∀ c p k s', (s.cpus c).proc = some p → s.fork p = .copied k → step s (.forkRun c) = some s' →
        (s'.proc k).killed = (s.proc k).killed) := by
  constructor
  · intro s hr
    have h := clean_reach hr
    obtain ⟨q, hI⟩ := inv_reach (b := false) nofun hr
    refine ⟨?_, ?_, ?_⟩
    · intro k hk; exact ⟨h.killed k (.inl hk), h.parent k hk⟩
    · intro c p k s' hp hf hs
      obtain ⟨hrun, hkill⟩ := forkRun_killed hI hp hf hs
      have he := hI.built.embryo p k (by rw [show (life s).fork p = _ from hf]; rfl)
      exact ⟨hrun, hkill.trans (h.killed k (.inr he))⟩
    · intro pid hst
      cases ht : killTarget s pid with
      | none =>
        rw [killTarget_none ht]
        exact ⟨fun h0 => absurd (show (-1 : Int) = 0 from h0) (by decide), fun _ => rfl⟩
      | some k =>
        have hk := hst k ht
        exact ⟨fun _ => ⟨k, hk.1, killTarget_pid ht⟩, fun hno => absurd (killTarget_pid ht) (hno k hk.1)⟩
  · intro s hr
    obtain ⟨q, hI⟩ := inv_reach (b := false) nofun hr
    constructor
    · intro pid k hk hst
      unfold kill
      rw [hk]
      rcases hst with hst | hst <;> simp [hst]
    · intro c p k s' hp hf hs; exact (forkRun_killed hI hp hf hs).2

/-- A child that is killed exits and is waited for, and the next one gets its slot, without the mark. -/
theorem new_process_clean_reused : ∃ s s' : Kernel 1, Reach (· = bootKernel mpmainTypes) step KillsStarted s ∧
    s.fork 0 = .copied 1 ∧ (s.proc 1).pid = 3 ∧ step s (.forkRun 0) = some s' ∧ (s'.proc 1).state = .runnable ∧
    (s'.proc 1).killed = false := by
  have hrun : (runActs (guarded step KillsStarted) (bootKernel mpmainTypes) (childRun (0 : Fin 1) ++
      [.kill 0 2, .exit 0, .scheduler 0, .wait 0, .forkAlloc 0, .forkCopy 0])).any
      (fun s => (s.cpus 0).proc = some 0 ∧ s.fork 0 = .copied 1 ∧ (s.proc 1).pid = 3 ∧ (step s (.forkRun 0)).isSome) =
        true := by
    decide +kernel
  obtain ⟨s, hr, hs⟩ := exists_reach_of_guarded_run (· = bootKernel mpmainTypes) KillsStarted rfl _ _ hrun
  obtain ⟨hp, hf, hpid, hsome⟩ := of_decide_eq_true hs
  obtain ⟨s', hs'⟩ := Option.isSome_iff_exists.1 hsome
  exact ⟨s, s', hr, hf, hpid, hs', ((new_process_clean mpmainTypes).1 s hr).2.1 0 0 1 s' hp hf hs'⟩

/-- One CPU: init calls `kill(0)` and then forks. -/
def killZeroRun (c : Fin n) : List (Act n) :=
  [.userinitAlloc, .userinitRun, .scheduler c, .kill c 0, .forkAlloc c, .forkCopy c, .forkRun c]

/-- `kill(0)` returns 0 although no process has pid 0, and the next process `fork` returns is marked. -/
theorem kill_zero_marks_child :
    (∃ s : Kernel 1, Reachable (· = bootKernel mpmainTypes) step s ∧ (kill s 0).1 = 0 ∧
      (∀ k, (s.proc k).state ≠ .unused → (s.proc k).pid ≠ 0) ∧
      ((kill s 0).2.proc 1).state = .unused ∧ ((kill s 0).2.proc 1).killed = true) ∧
    ∃ s : Kernel 1, Reachable (· = bootKernel mpmainTypes) step s ∧
      (s.proc 1).state = .runnable ∧ (s.proc 1).pid = 2 ∧ (s.proc 1).killed = true := by
  constructor
  · have hrun : (runActs step (bootKernel mpmainTypes) ((killZeroRun (0 : Fin 1)).take 3)).any
        (fun s => (kill s 0).1 = 0 ∧ (∀ k, (s.proc k).state ≠ .unused → (s.proc k).pid ≠ 0) ∧
          ((kill s 0).2.proc 1).state = .unused ∧ ((kill s 0).2.proc 1).killed = true) = true := by decide +kernel
    obtain ⟨s, hr, hs⟩ := exists_reachable_of_run (· = bootKernel mpmainTypes) rfl _ _ hrun
    exact ⟨s, hr, of_decide_eq_true hs⟩
  · have hrun : (runActs step (bootKernel mpmainTypes) (killZeroRun (0 : Fin 1))).any
        (fun s => (s.proc 1).state = .runnable ∧ (s.proc 1).pid = 2 ∧ (s.proc 1).killed = true) = true := by
      decide +kernel
    obtain ⟨s, hr, hs⟩ := exists_reachable_of_run (· = bootKernel mpmainTypes) rfl _ _ hrun
    exact ⟨s, hr, of_decide_eq_true hs⟩

end Xv6.Sched
