/-
Init and sh stay on E-cores. Only `load_balance` names the rule, but the other ways onto a P-core are
closed too: new and woken processes go to an E-core, because CPU 0 is one, and `yield` keeps a process
on the core it runs on.
-/
import Xv6.Sched.Lifecycle

namespace Xv6.Sched

open Base Function

variable {n : Nat} {p : Slot}

/-! ## Pids and creation times -/

section

variable {t t' : Life} {k : Slot}

theorem Life.mod_names {f : Entry → Entry} (hf : ∀ e, (f e).pid = e.pid ∧ (f e).ctime = e.ctime) :
    ((t.mod k f).entry p).pid = (t.entry p).pid ∧ ((t.mod k f).entry p).ctime = (t.entry p).ctime := by
  by_cases e : p = k
  · subst e; simp only [Life.mod, update_self]; exact hf _
  · simp [Life.mod, e]

theorem fire_names (hp : t.Live p) {e : Event} (hs : fire t e = some t') :
    (t'.entry p).pid = (t.entry p).pid ∧ (t'.entry p).ctime = (t.entry p).ctime := by
  have hne : ∀ k st, (t.entry k).state = st → st = .unused ∨ st = .zombie → p ≠ k := by
    rintro k st hst hst' rfl
    unfold Life.Live at hp
    rw [hst] at hp
    rcases hst' with rfl | rfl <;> simp at hp
  cases e with
  | quiet | childless _ | tick => cases hs; exact ⟨rfl, rfl⟩
  | userinit k | alloc _ k =>
    obtain ⟨⟨-, hu⟩, ⟨⟩⟩ := Option.ite_none_right_eq_some.1 hs
    simp [Life.alloc, Life.setFork, Life.mod, hne k _ hu (.inl rfl)]
  | reap _ k =>
    obtain ⟨⟨-, -, hz⟩, ⟨⟩⟩ := Option.ite_none_right_eq_some.1 hs
    simp [Life.mod, hne k _ hz (.inr rfl)]
  | wakeup chan =>
    cases hs
    simp only [Life.wake]
    split <;> exact ⟨rfl, rfl⟩
  | exit r =>
    obtain ⟨-, ⟨⟩⟩ := Option.ite_none_right_eq_some.1 hs
    have hm := Life.mod_names (t := (t.wake (t.WokenByExit r)).orphan r) (p := p) (k := r)
      (f := fun e => { e with state := .zombie }) fun _ => ⟨rfl, rfl⟩
    refine ⟨hm.1.trans ?_, hm.2.trans ?_⟩
    all_goals
      simp only [Life.orphan, Life.wake]
      split <;> rfl
  | kill k => cases hs; exact Life.mod_names fun _ => ⟨rfl, rfl⟩
  | start k =>
    obtain ⟨-, ⟨⟩⟩ := Option.ite_none_right_eq_some.1 hs
    exact Life.mod_names (t := t) (k := k) (f := fun e => { e with state := .runnable }) fun _ => ⟨rfl, rfl⟩
  | copy r k =>
    obtain ⟨-, ⟨⟩⟩ := Option.ite_none_right_eq_some.1 hs
    exact Life.mod_names (t := t) (k := k) (f := fun e => { e with parent := some r }) fun _ => ⟨rfl, rfl⟩
  | fail _ k | run _ k | dispatch k | yield k | sleep k _ | doze k | slice k =>
    obtain ⟨-, ⟨⟩⟩ := Option.ite_none_right_eq_some.1 hs
    exact Life.mod_names fun _ => ⟨rfl, rfl⟩

end

variable {b : Bool} {s s' : Kernel n} {q : Fin n → List Slot}

theorem step_names [NeZero n] (h : Inv b s q) {a : Act n} (hs : step s a = some s') (hp : Alive s p) :
    (s'.proc p).pid = (s.proc p).pid ∧ (s'.proc p).ctime = (s.proc p).ctime :=
  fire_names (t := life s) hp (step_life h hs)

/-! ## P-cores -/

/-- Init and sh are neither queued on a P-core nor running there. -/
def SparesInit (s : Kernel n) (q : Fin n → List Slot) : Prop :=
  ∀ c, (s.cpus c).coreType = .coreP →
    (∀ p ∈ q c, (s.proc p).pid > 2) ∧ ∀ p, (s.cpus c).proc = some p → (s.proc p).pid > 2

theorem Inv.alive_listed (h : Inv b s q) {c : Fin n} (hp : p ∈ q c) : Alive s p := .inr (.inl (h.listed p ⟨c, hp⟩))

theorem Inv.alive_current (h : Inv b s q) {c : Fin n} (hp : (s.cpus c).proc = some p) : Alive s p :=
  .inr (.inr ((h.running p).2 ⟨c, hp⟩))

theorem SparesInit.balanced {c : Fin n} {q0 : Fin n → List Slot} (hx : SparesInit s q) (hb : Balanced s c q q0) :
    SparesInit s q0 := by
  rcases hb with rfl | ⟨d, v, hc, hd, hv, hpid, rfl⟩
  · exact hx
  · intro e he
    refine ⟨fun p hp => ?_, (hx e he).2⟩
    by_cases hed : e = d
    · subst hed
      rw [update_self] at hp
      rcases List.mem_append.1 hp with hp | hp
      · exact (hx e he).1 p hp
      · rw [List.mem_singleton.1 hp]; exact hpid
    · rw [update_of_ne hed] at hp
      have hec : e ≠ c := by
        rintro rfl; rw [hc] at he; cases he
      rw [update_of_ne hec] at hp
      exact (hx e he).1 p hp

variable [NeZero n]

/-- One step keeps init and sh off the P-cores, where there is an E-core. -/
theorem sparesInit_step (h : Inv b s q) (hx : SparesInit s q) (hE : ∃ d, (s.cpus d).coreType = .coreE) {a : Act n}
    {q' : Fin n → List Slot} (hs : step s a = some s') (hm : Moves s q s' q')
    (ht : ∀ d, (s'.cpus d).coreType = (s.cpus d).coreType) : SparesInit s' q' := by
  -- what is queued or runs on a P-core afterwards lived before and was no init or sh
  suffices hold : ∀ c, (s.cpus c).coreType = .coreP →
      (∀ p ∈ q' c, Alive s p ∧ (s.proc p).pid > 2) ∧ ∀ p, (s'.cpus c).proc = some p → Alive s p ∧ (s.proc p).pid > 2 by
    intro c hc
    rw [ht] at hc
    refine ⟨fun p hp => ?_, fun p hp => ?_⟩
    · obtain ⟨ha, hpid⟩ := (hold c hc).1 p hp
      rw [(step_names h hs ha).1]
      exact hpid
    · obtain ⟨ha, hpid⟩ := (hold c hc).2 p hp
      rw [(step_names h hs ha).1]
      exact hpid
  intro c hc
  have hlisted : ∀ p ∈ q c, Alive s p ∧ (s.proc p).pid > 2 := fun p hp => ⟨h.alive_listed hp, (hx c hc).1 p hp⟩
  have hcurrent : ∀ p, (s.cpus c).proc = some p → Alive s p ∧ (s.proc p).pid > 2 := fun p hp =>
    ⟨h.alive_current hp, (hx c hc).2 p hp⟩
  have hbalanced : ∀ {d q0}, Balanced s d q q0 → ∀ p ∈ q0 c, Alive s p ∧ (s.proc p).pid > 2 := by
    intro d q0 hb p hp
    obtain ⟨e, he⟩ := (hb.listed h.queues p).1 ⟨c, hp⟩
    exact ⟨h.alive_listed he, (hx.balanced hb c hc).1 p hp⟩
  cases hm with
  | push hq hcur =>
    constructor
    · intro p hp
      obtain ⟨new, e, hnew⟩ := hq c
      rw [e] at hp
      rcases List.mem_append.1 hp with hp | hp
      · exact hlisted p hp
      · -- new and woken processes go to an E-core
        obtain ⟨d, hd⟩ := hE
        rcases (hnew p hp).2.2 with he | he
        · rw [hc] at he; cases he
        · exact absurd hd (he d)
    · intro p hp
      rcases hcur c with e | e
      · exact hcurrent p (e.symm.trans hp)
      · rw [e] at hp; cases hp
  | yield d r hr hq hcur =>
    subst hq
    constructor
    · intro p hp
      rcases mem_update_append.1 hp with hp | ⟨rfl, rfl⟩
      · exact hlisted p hp
      · exact hcurrent p hr
    · intro p hp
      rw [hcur c] at hp
      split at hp
      · cases hp
      · exact hcurrent p hp
  | balance d hq hcur => exact ⟨hbalanced hq, fun p hp => hcurrent p ((hcur c).symm.trans hp)⟩
  | pick d q0 r pre post hd hb hl hch hq hcur =>
    have hmem : ∀ p ∈ pre ++ r :: post, p ∈ q0 d := fun p hp => by rw [hl]; exact hp
    constructor
    · intro p hp
      rw [hq] at hp
      by_cases e : c = d
      · subst e
        rw [update_self] at hp
        refine hbalanced hb p (hmem p ?_)
        rw [List.mem_append] at hp ⊢
        exact hp.imp_right (List.mem_cons_of_mem r)
      · rw [update_of_ne e] at hp; exact hbalanced hb p hp
    · intro p hp
      rw [hcur c] at hp
      split at hp
      · rename_i e
        cases hp
        subst e
        exact hbalanced hb r (hmem r (by simp))
      · exact hcurrent p hp

/-- With the core types of `mpmain`, init and sh are in every run neither on the queue of a P-core nor
its current process. -/
theorem init_sh_on_ecores (s : Kernel n) (hr : Reachable (· = bootKernel mpmainTypes) step s) :
    (∀ c, (s.cpus c).coreType = mpmainTypes c) ∧
    ∀ c, (s.cpus c).coreType = .coreP → ∀ p, (s.proc p).pid ≤ 2 → ¬ OnQueue s c p ∧ (s.cpus c).proc ≠ some p := by
  have hinv : ∃ q, Inv false s q ∧ (∀ c, (s.cpus c).coreType = mpmainTypes c) ∧ SparesInit s q := by
    refine Reach.inv (P := fun s => ∃ q, Inv false s q ∧ (∀ c, (s.cpus c).coreType = mpmainTypes c) ∧
      SparesInit s q) ?_ ?_ hr
    · rintro s rfl
      refine ⟨_, inv_boot false _, fun _ => rfl, fun c _ => ⟨by simp, fun p hp => ?_⟩⟩
      cases hp
    · rintro s a s' ⟨q, hI, ht, hx⟩ - hs
      obtain ⟨q', hI', -, hm, ht'⟩ := step_spec hI (fun hb => by cases hb) hs
      have hE : (s.cpus 0).coreType = .coreE := by rw [ht]; rfl
      exact ⟨q', hI', fun c => (ht' c).trans (ht c), sparesInit_step hI hx ⟨0, hE⟩ hs hm ht'⟩
  obtain ⟨q, hI, ht, hx⟩ := hinv
  refine ⟨ht, fun c hc p hp => ⟨?_, ?_⟩⟩
  · rintro ⟨l, hl, hmem⟩
    rw [hl.unique (hI.queues.chain c)] at hmem
    have := (hx c hc).1 p hmem
    omega
  · intro hcur; have := (hx c hc).2 p hcur; omega

/-- Two CPUs after init was dispatched: it does not run on CPU 1. -/
theorem init_sh_on_ecores_two :
    ∃ s : Kernel 2, (s.proc 0).pid = 1 ∧ (s.cpus 0).proc = some 0 ∧ (s.cpus 1).coreType = .coreP ∧ ¬ OnQueue s 1 0 ∧
      (s.cpus 1).proc ≠ some 0 := by
  have hrun : (runActs step (bootKernel mpmainTypes) [.userinitAlloc, .userinitRun, .scheduler 0]).any
      (fun s : Kernel 2 => (s.proc 0).pid = 1 ∧ (s.cpus 0).proc = some 0 ∧ (s.cpus 1).coreType = .coreP) = true := by
    decide +kernel
  obtain ⟨s, hr, hs⟩ := exists_reachable_of_run (· = bootKernel mpmainTypes) rfl _ _ hrun
  obtain ⟨h1, h2, h3⟩ := of_decide_eq_true hs
  obtain ⟨-, h⟩ := init_sh_on_ecores s hr
  exact ⟨s, h1, h2, h3, h 1 h3 0 (by rw [h1]; decide)⟩

end Xv6.Sched
