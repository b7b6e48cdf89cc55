/-
The order of service on a P-core. `scheduler` takes the first process with the smallest `ctime`, and
`yield` puts the preempted process behind the processes already queued. So the process that yields is
dispatched again, as first come first served asks for, exactly when no process queued with it was
created in the same tick: one of equal age that stands before it in the queue overtakes it.
-/
import Xv6.Sched.Cores

namespace Xv6.Sched

open Base Function

variable {n : Nat} {b : Bool} {s s' : Kernel n} {q q' : Fin n → List Slot} {c : Fin n} {p r : Slot}

/-- The process is put on the queue of `c` by the step. -/
def Placed (s s' : Kernel n) (c : Fin n) (x : Slot) : Prop := OnQueue s' c x ∧ ¬ OnQueue s c x

/-- The step leaves `cur` current on `c` and places nobody older than `p` on its queue. -/
def Undisturbed [NeZero n] (c : Fin n) (cur : Option Slot) (p : Slot) (s : Kernel n) (a : Act n) : Prop :=
  ∀ s', step s a = some s' →
    (s'.cpus c).proc = cur ∧ ∀ x, Placed s s' c x → ¬ (s'.proc x).ctime < (s'.proc p).ctime

theorem onQueue_iff (h : QInv s q) : OnQueue s c p ↔ p ∈ q c := by
  constructor
  · rintro ⟨l, hl, hp⟩; rwa [hl.unique (h.chain c)] at hp
  · intro hp; exact ⟨q c, h.chain c, hp⟩

/-! ## A P-core's queue only grows -/

theorem Balanced.pcore {d : Fin n} (hb : Balanced s d q q') (hc : (s.cpus c).coreType = .coreP) :
    ∃ new, q' c = q c ++ new := by
  rcases hb with rfl | ⟨e, v, hd, -, -, -, rfl⟩
  · exact ⟨[], (List.append_nil _).symm⟩
  · have hcd : c ≠ d := by
      rintro rfl; rw [hd] at hc; cases hc
    by_cases hce : c = e
    · subst hce; exact ⟨[v], update_self ..⟩
    · exact ⟨[], by rw [update_of_ne hce, update_of_ne hcd, List.append_nil]⟩

/-- Without a dispatch or a yield on a P-core its queue only grows. -/
theorem Moves.pcore (hm : Moves s q s' q') (hc : (s.cpus c).coreType = .coreP) (h0 : (s.cpus c).proc = none)
    (h1 : (s'.cpus c).proc = none) : ∃ new, q' c = q c ++ new := by
  cases hm with
  | push hq hcur => obtain ⟨new, e, -⟩ := hq c; exact ⟨new, e⟩
  | yield d r hr hq hcur =>
    have hcd : c ≠ d := by
      rintro rfl; rw [h0] at hr; cases hr
    exact ⟨[], by rw [hq, update_of_ne hcd, List.append_nil]⟩
  | balance d hq hcur => exact hq.pcore hc
  | pick d q0 r pre post hd hb hl hch hq hcur =>
    have hcd : c ≠ d := by
      rintro rfl; rw [hcur c, if_pos rfl] at h1; cases h1
    rw [hq, update_of_ne hcd]
    exact hb.pcore hc

theorem Balanced.pcore_self (hb : Balanced s c q q') (hc : (s.cpus c).coreType = .coreP) : q' = q := by
  rcases hb with rfl | ⟨e, v, hd, -⟩
  · rfl
  · rw [hc] at hd; cases hd

theorem Moves.dispatched (hm : Moves s q s' q') (h0 : (s.cpus c).proc = none) (h1 : (s'.cpus c).proc = some r) :
    ∃ q0 pre post, Balanced s c q q0 ∧ q0 c = pre ++ r :: post ∧ Chosen s c pre r post ∧ q' c = pre ++ post := by
  cases hm with
  | push hq hcur =>
    rcases hcur c with e | e
    · rw [e, h0] at h1; cases h1
    · rw [e] at h1; cases h1
  | yield d x hx hq hcur =>
    rw [hcur c] at h1
    split at h1
    · cases h1
    · rw [h0] at h1; cases h1
  | balance d hq hcur => rw [hcur c, h0] at h1; cases h1
  | pick d q0 x pre post hd hb hl hch hq hcur =>
    rw [hcur c] at h1
    split at h1
    · rename_i e
      cases h1
      subst e
      exact ⟨q0, pre, post, hb, hl, hch, by rw [hq, update_self]⟩
    · rw [h0] at h1; cases h1

theorem Moves.dispatch_pcore (hm : Moves s q s' q') (hc : (s.cpus c).coreType = .coreP) (h0 : (s.cpus c).proc = none)
    (h1 : (s'.cpus c).proc = some r) :
    ∃ pre post, q c = pre ++ r :: post ∧ q' c = pre ++ post ∧ (∀ x ∈ pre, (s.proc r).ctime < (s.proc x).ctime) ∧
      ∀ x ∈ post, (s.proc r).ctime ≤ (s.proc x).ctime := by
  obtain ⟨q0, pre, post, hb, hl, hch, hq⟩ := hm.dispatched h0 h1
  rw [hb.pcore_self hc] at hl
  unfold Chosen at hch
  rw [hc] at hch
  exact ⟨pre, post, hl, hq, hch⟩

/-! ## One turn of a process -/

/-- The queue `l ++ p :: post` of a preempted process `p`, nobody of which is older than `p`: the first of
the oldest is `p` exactly when nobody before it is of its age. -/
theorem first_oldest_iff (ct : Slot → UInt32) {l post pre' post' : List Slot} (hnd : (l ++ p :: post).Nodup)
    (he : l ++ p :: post = pre' ++ r :: post') (hl : ∀ x ∈ l, ct p ≤ ct x) (hpost : ∀ x ∈ post, ct p ≤ ct x)
    (h1 : ∀ x ∈ pre', ct r < ct x) (h2 : ∀ x ∈ post', ct r ≤ ct x) : r = p ↔ ∀ x ∈ l, ct x ≠ ct p := by
  have hsame : p = r → l = pre' → (r = p ↔ ∀ x ∈ l, ct x ≠ ct p) := by
    rintro rfl rfl
    refine ⟨fun _ x hx e => ?_, fun _ => rfl⟩
    have := h1 x hx
    rw [e] at this
    exact absurd this (UInt32.lt_irrefl _)
  rcases List.append_eq_append_iff.1 he with ⟨e, rfl, hr⟩ | ⟨e, rfl, hr⟩
  · cases e with
    | nil => exact hsame (List.cons.inj hr).1 (List.append_nil _).symm
    | cons y e =>
      -- `p` stands before the choice, which is not younger
      obtain ⟨rfl, rfl⟩ := List.cons.inj hr
      have hlt := h1 p (by simp)
      have hle := hpost r (by simp)
      rw [UInt32.lt_iff_toNat_lt] at hlt
      rw [UInt32.le_iff_toNat_le] at hle
      omega
  · cases e with
    | nil => exact hsame (List.cons.inj hr).1.symm (List.append_nil _)
    | cons y e =>
      -- the choice stands before `p` and is as old
      obtain ⟨rfl, rfl⟩ := List.cons.inj hr
      have hle := h2 p (by simp)
      have hge := hl r (by simp)
      have hrp : r ≠ p := by
        rintro rfl; exact (List.nodup_append.1 hnd).2.2 r (by simp) r (by simp) rfl
      exact ⟨fun e => absurd e hrp, fun h => absurd (UInt32.le_antisymm hle hge) (h r (by simp))⟩

variable [NeZero n]

/-- While `p` runs on the P-core `c` nobody on its queue is older. -/
structure Serving (s : Kernel n) (c : Fin n) (p : Slot) (q : Fin n → List Slot) : Prop where
  inv : Inv false s q
  pcore : (s.cpus c).coreType = .coreP
  current : (s.cpus c).proc = some p
  oldest : ∀ x ∈ q c, (s.proc p).ctime ≤ (s.proc x).ctime

/-- After `p` has yielded: who was queued then stands before it with the age it had, who came later
behind it and is not older. -/
structure Preempted (s : Kernel n) (c : Fin n) (p : Slot) (l : List Slot) (ct : Slot → UInt32) (q : Fin n → List Slot)
    (post : List Slot) : Prop where
  inv : Inv false s q
  pcore : (s.cpus c).coreType = .coreP
  idle : (s.cpus c).proc = none
  queue : q c = l ++ p :: post
  ctime : ∀ x ∈ l ++ [p], (s.proc x).ctime = ct x
  later : ∀ x ∈ post, ct p ≤ (s.proc x).ctime

theorem serving_step (h : Serving s c p q) {a : Act n} (hok : Undisturbed c (some p) p s a) (hs : step s a = some s') :
    ∃ q', Serving s' c p q' := by
  obtain ⟨q', hI, -, -, ht⟩ := step_spec h.inv (fun hb => by cases hb) hs
  obtain ⟨hcur, hplaced⟩ := hok s' hs
  refine ⟨q', hI, by rw [ht]; exact h.pcore, hcur, fun x hx => ?_⟩
  have hp := (step_names h.inv hs (h.inv.alive_current h.current)).2
  by_cases hold : x ∈ q c
  · rw [hp, (step_names h.inv hs (h.inv.alive_listed hold)).2]; exact h.oldest x hold
  · exact UInt32.not_lt.1 (hplaced x ⟨(onQueue_iff hI.queues).2 hx, fun ho => hold ((onQueue_iff h.inv.queues).1 ho)⟩)

theorem preempted_step {l post : List Slot} {ct : Slot → UInt32} (h : Preempted s c p l ct q post) {a : Act n}
    (hok : Undisturbed c none p s a) (hs : step s a = some s') : ∃ q' post', Preempted s' c p l ct q' post' := by
  obtain ⟨q', hI, -, hm, ht⟩ := step_spec h.inv (fun hb => by cases hb) hs
  obtain ⟨hcur, hplaced⟩ := hok s' hs
  obtain ⟨new, hnew⟩ := hm.pcore h.pcore h.idle hcur
  have hnames : ∀ x ∈ q c, (s'.proc x).ctime = (s.proc x).ctime := fun x hx =>
    (step_names h.inv hs (h.inv.alive_listed hx)).2
  have hold : ∀ x ∈ l ++ [p], (s'.proc x).ctime = ct x := by
    intro x hx
    refine (hnames x ?_).trans (h.ctime x hx)
    rw [h.queue]
    rcases List.mem_append.1 hx with hx | hx
    · exact List.mem_append_left _ hx
    · rw [List.mem_singleton.1 hx]; simp
  have hnd := (hI.queues.chain c).nodup
  rw [hnew] at hnd
  refine ⟨q', post ++ new, hI, by rw [ht]; exact h.pcore, hcur, by rw [hnew, h.queue]; simp, hold, fun x hx => ?_⟩
  rcases List.mem_append.1 hx with hx | hx
  · rw [hnames x (by rw [h.queue]; simp [hx])]; exact h.later x hx
  · rw [← hold p (by simp)]
    refine UInt32.not_lt.1 (hplaced x ⟨(onQueue_iff hI.queues).2 ?_, fun ho => ?_⟩)
    · rw [hnew]; exact List.mem_append_right _ hx
    · exact (List.nodup_append.1 hnd).2.2 x ((onQueue_iff h.inv.queues).1 ho) x hx rfl

/-- The dispatch of `p` on a P-core, to which a timer interrupt and the core's next dispatch follow. -/
theorem pcore_turn {s0 s1 s2 s3 s4 s5 : Kernel n} (h0 : ∃ q, Inv false s0 q) (hc : (s0.cpus c).coreType = .coreP)
    (hs1 : step s0 (.scheduler c) = some s1) (hp : (s1.cpus c).proc = some p)
    (hr2 : Reach (· = s1) step (Undisturbed c (some p) p) s2) (hs3 : step s2 (.yield c) = some s3)
    (hr4 : Reach (· = s3) step (Undisturbed c none p) s4) (hs5 : step s4 (.scheduler c) = some s5)
    (hr : (s5.cpus c).proc = some r) : r = p ↔ ∀ x, OnQueue s2 c x → (s2.proc x).ctime ≠ (s2.proc p).ctime := by
  have hidle : ∀ {s s' : Kernel n}, step s (.scheduler c) = some s' → (s.cpus c).proc = none := by
    intro s s' hs
    simp only [step] at hs
    split at hs
    · assumption
    · cases hs
  -- from the dispatch to the yield
  obtain ⟨q2, h2⟩ : ∃ q, Serving s2 c p q := by
    refine Reach.inv (P := fun s => ∃ q, Serving s c p q) ?_ ?_ hr2
    · rintro s rfl
      obtain ⟨q, hI⟩ := h0
      obtain ⟨q', hI', -, hm, ht⟩ := step_spec hI (fun hb => by cases hb) hs1
      obtain ⟨pre, post, hq, hq', hlt, hle⟩ := hm.dispatch_pcore hc (hidle hs1) hp
      have hnames : ∀ x ∈ q c, (s.proc x).ctime = (s0.proc x).ctime :=
        fun x hx => (step_names hI hs1 (hI.alive_listed hx)).2
      refine ⟨q', hI', by rw [ht]; exact hc, hp, fun x hx => ?_⟩
      rw [hq'] at hx
      rw [hnames p (by rw [hq]; simp)]
      rcases List.mem_append.1 hx with hx | hx
      · rw [hnames x (by rw [hq]; simp [hx])]; exact UInt32.le_of_lt (hlt x hx)
      · rw [hnames x (by rw [hq]; simp [hx])]; exact hle x hx
    · rintro s a s' ⟨q, h⟩ hok hs; exact serving_step h hok hs
  -- from the yield to the next dispatch
  obtain ⟨q4, post, h4⟩ : ∃ q post, Preempted s4 c p (q2 c) (fun x => (s2.proc x).ctime) q post := by
    refine Reach.inv (P := fun s => ∃ q post, Preempted s c p (q2 c) (fun x => (s2.proc x).ctime) q post) ?_ ?_ hr4
    · rintro s rfl
      obtain ⟨s', e, hI, -, w, -⟩ :=
        h2.inv.yield h2.current (A := fun _ => False) (X := fun _ => False) (E := fun _ _ => False)
      rw [step, e] at hs3
      rw [← Option.some.inj hs3]
      refine ⟨_, [], hI, ?_, ?_, ?_, fun x _ => ?_, by simp⟩
      · rw [(idle_cpu s' c c).2, (w.cpu c).2]; exact h2.pcore
      · rw [(idle_cpu s' c c).1, if_pos rfl]
      · rw [update_self]
      · show (s'.proc x).ctime = _
        rw [w.agree x]
        exact s2.modProc_apply p x Proc.ctime rfl
    · rintro s a s' ⟨q, post, h⟩ hok hs; exact preempted_step h hok hs
  -- the choice at the next dispatch
  obtain ⟨q5, hI5, -, hm, -⟩ := step_spec h4.inv (fun hb => by cases hb) hs5
  obtain ⟨pre', post', hq, -, hlt, hle⟩ := hm.dispatch_pcore h4.pcore h4.idle hr
  have hct : ∀ x ∈ q2 c ++ [p], (s4.proc x).ctime = (s2.proc x).ctime := h4.ctime
  have hnd := (h4.inv.queues.chain c).nodup
  rw [h4.queue] at hnd hq
  have hiff := first_oldest_iff (fun x => (s4.proc x).ctime) hnd hq (fun x hx => ?_) (fun x hx => ?_) hlt hle
  · rw [hiff]
    constructor
    · intro hne x hx
      have hx := (onQueue_iff h2.inv.queues).1 hx
      have := hne x hx
      rwa [hct x (by simp [hx]), hct p (by simp)] at this
    · intro hne x hx
      rw [hct x (by simp [hx]), hct p (by simp)]
      exact hne x ((onQueue_iff h2.inv.queues).2 hx)
  · rw [hct x (by simp [hx]), hct p (by simp)]; exact h2.oldest x hx
  · rw [hct p (by simp)]; exact h4.later x hx

/-- First come first served on a P-core. If it dispatches `p`, the timer makes `p` yield and meanwhile
nobody older is placed on the queue, the next dispatch is of `p` again exactly when no process queued
at the yield was created in the same tick as `p`; and every dispatch takes a process whose `ctime` is
smallest on the queue. -/
theorem pcore_fcfs (types : Fin n → CoreType) (s0 : Kernel n) (h0 : Reachable (· = bootKernel types) step s0)
    (c : Fin n) (hc : (s0.cpus c).coreType = .coreP) :
    (∀ p r s1 s2 s3 s4 s5, step s0 (.scheduler c) = some s1 → (s1.cpus c).proc = some p →
      Reach (· = s1) step (Undisturbed c (some p) p) s2 → step s2 (.yield c) = some s3 →
      Reach (· = s3) step (Undisturbed c none p) s4 → step s4 (.scheduler c) = some s5 → (s5.cpus c).proc = some r →
      (r = p ↔ ∀ x, OnQueue s2 c x → (s2.proc x).ctime ≠ (s2.proc p).ctime)) ∧
    (∀ r s1, step s0 (.scheduler c) = some s1 → (s1.cpus c).proc = some r →
      OnQueue s0 c r ∧ ∀ x, OnQueue s0 c x → (s0.proc r).ctime ≤ (s0.proc x).ctime) := by
  have hI : ∃ q, Inv false s0 q := inv_reach (fun hb => by cases hb) h0
  constructor
  · intro p r s1 s2 s3 s4 s5 hs1 hp hr2 hs3 hr4 hs5 hr
    exact pcore_turn hI hc hs1 hp hr2 hs3 hr4 hs5 hr
  · intro r s1 hs1 hr
    obtain ⟨q, hI⟩ := hI
    obtain ⟨q', -, -, hm, -⟩ := step_spec hI (fun hb => by cases hb) hs1
    have hidle : (s0.cpus c).proc = none := by
      simp only [step] at hs1
      split at hs1
      · assumption
      · cases hs1
    obtain ⟨pre, post, hq, -, hlt, hle⟩ := hm.dispatch_pcore hc hidle hr
    refine ⟨(onQueue_iff hI.queues).2 (by rw [hq]; simp), fun x hx => ?_⟩
    have hx := (onQueue_iff hI.queues).1 hx
    rw [hq, List.mem_append, List.mem_cons] at hx
    rcases hx with hx | rfl | hx
    · exact UInt32.le_of_lt (hlt x hx)
    · exact UInt32.le_refl _
    · exact hle x hx

/-- Two CPUs: init forks six times, with `later` after each, and waits, CPU 0 runs sh, and sh sleeps. -/
def balanceRun (later : List (Act 2)) : List (Act 2) :=
  ([.userinitAlloc, .userinitRun, .scheduler 0] : List (Act 2)) ++
    (List.replicate 6 ([.forkAlloc 0, .forkCopy 0, .forkRun 0] ++ later : List (Act 2))).flatten ++
    ([.wait 0, .scheduler 0, .sleep 0 .inputR] : List (Act 2))

/-- Two processes of different ticks on the P-core: the older is dispatched again after its yield. -/
theorem pcore_fcfs_ticks :
    ∃ s0 s1 s3 s5 : Kernel 2, Reachable (· = bootKernel mpmainTypes) step s0 ∧ step s0 (.scheduler 1) = some s1 ∧
      (s1.cpus 1).proc = some 2 ∧ OnQueue s1 1 3 ∧ step s1 (.yield 1) = some s3 ∧ step s3 (.scheduler 1) = some s5 ∧
      ∀ r, (s5.cpus 1).proc = some r → r = 2 := by
  have hrun : (runActs step (bootKernel mpmainTypes) (balanceRun [.tick] ++ [.loadBalance 0, .loadBalance 0])).any
      (fun s0 => (s0.cpus 1).coreType = .coreP && (step s0 (.scheduler 1)).any fun s1 =>
        ((s1.cpus 1).proc = some 2 ∧ (s1.cpus 1).runq = some 3 ∧ s1.next 3 = none ∧
          (s1.proc 3).ctime ≠ (s1.proc 2).ctime) &&
        (step s1 (.yield 1)).any fun s3 => (step s3 (.scheduler 1)).isSome) = true := by decide +kernel
  obtain ⟨s0, h0, hs⟩ := exists_reachable_of_run (· = bootKernel mpmainTypes) rfl _ _ hrun
  simp only [Bool.and_eq_true, decide_eq_true_eq, Option.any_eq_true] at hs
  obtain ⟨hc, s1, hs1, ⟨hp, hq, hnext, hct⟩, s3, hs3, h5⟩ := hs
  obtain ⟨s5, hs5⟩ := Option.isSome_iff_exists.1 h5
  have hchain : Chain s1.next (s1.cpus 1).runq [3] := ⟨hq, hnext⟩
  refine ⟨s0, s1, s3, s5, h0, hs1, hp, ⟨[3], hchain, List.mem_singleton_self 3⟩, hs3, hs5, fun r hr => ?_⟩
  refine ((pcore_fcfs mpmainTypes s0 h0 1 hc).1 2 r s1 s1 s3 s3 s5 hs1 hp (.init rfl) hs3 (.init rfl) hs5 hr).2
    fun x hx => ?_
  obtain ⟨l, hl, hx⟩ := hx
  rw [hl.unique hchain, List.mem_singleton] at hx
  rwa [hx]

/-- Two processes of the same tick on the P-core: the first is dispatched, yields, and the second is
dispatched next, although nobody was placed on the queue but the first itself. -/
theorem pcore_tie_overtakes :
    ∃ s0 s1 s3 s5 : Kernel 2, Reachable (· = bootKernel mpmainTypes) step s0 ∧ (s0.cpus 1).coreType = .coreP ∧
      step s0 (.scheduler 1) = some s1 ∧ (s1.cpus 1).proc = some 2 ∧ step s1 (.yield 1) = some s3 ∧
      step s3 (.scheduler 1) = some s5 ∧ (s5.cpus 1).proc = some 3 ∧ (s1.proc 3).ctime = (s1.proc 2).ctime ∧
      ∀ x, Placed s1 s3 1 x → ¬ (s3.proc x).ctime < (s3.proc 2).ctime := by
  have hrun : (runActs step (bootKernel mpmainTypes) (balanceRun [] ++ [.scheduler 0])).any
      (fun s0 => (s0.cpus 1).coreType = .coreP &&
        (step s0 (.scheduler 1)).any fun s1 => (s1.cpus 1).proc = some 2 && (s1.proc 3).ctime = (s1.proc 2).ctime &&
          (step s1 (.yield 1)).any fun s3 => (∀ x, (s3.proc x).ctime = 0) &&
            (step s3 (.scheduler 1)).any fun s5 => (s5.cpus 1).proc = some 3) = true := by decide +kernel
  obtain ⟨s0, h0, hs⟩ := exists_reachable_of_run (· = bootKernel mpmainTypes) rfl _ _ hrun
  simp only [Bool.and_eq_true, decide_eq_true_eq, Option.any_eq_true] at hs
  obtain ⟨hc, s1, hs1, ⟨hp, hct⟩, s3, hs3, h0t, s5, hs5, hr⟩ := hs
  refine ⟨s0, s1, s3, s5, h0, hc, hs1, hp, hs3, hs5, hr, hct, fun x _ => ?_⟩
  rw [h0t x, h0t 2]
  exact UInt32.lt_irrefl 0

end Xv6.Sched
