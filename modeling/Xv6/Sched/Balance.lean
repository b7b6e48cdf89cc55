/-
What one call of `load_balance` does and where repeated calls end. On every well-formed run-queue
state the call returns; it moves a process exactly when the queue of the calling E-core is at least
three longer than the shortest queue of a P-core and some process on it is movable, and then the
first movable one goes to the tail of a shortest P-core queue, from a queue that stays the longer
of the two. The queue of the E-core shrinks with every move, so calling `load_balance` again and
again ends at a state where the threshold is not met or only init and sh are left.
-/
import Xv6.Sched.Queue
import Mathlib.Data.Fin.VecNotation
import Mathlib.Tactic.FinCases

namespace Xv6.Sched

open Base Function

variable {n : Nat} {s s' : Kernel n} {q q' : Fin n → List Slot} {c d : Fin n}

/-! ## The lightest CPU -/

/-- One round of the loop over the CPUs. -/
def lighter (s : Kernel n) (t : CoreType) (b : Option (Fin n) × Int) (i : Fin n) : Option (Fin n) × Int :=
  if (s.cpus i).coreType = t ∧ (s.cpus i).queueCount < b.2 then (some i, (s.cpus i).queueCount) else b

theorem foldl_lighter (s : Kernel n) (t : CoreType) : ∀ (l : List (Fin n)) (b : Option (Fin n) × Int),
    (∀ c, b.1 = some c → b.2 = (s.cpus c).queueCount) →
    (∀ c, (l.foldl (lighter s t) b).1 = some c → (l.foldl (lighter s t) b).2 = (s.cpus c).queueCount) ∧
    (l.foldl (lighter s t) b).2 ≤ b.2 ∧
    ∀ i ∈ l, (s.cpus i).coreType = t → (l.foldl (lighter s t) b).2 ≤ (s.cpus i).queueCount
  | [], b, hb => ⟨hb, le_refl _, by simp⟩
  | i :: l, b, hb => by
    have hstep : (∀ c, (lighter s t b i).1 = some c → (lighter s t b i).2 = (s.cpus c).queueCount) ∧
        (lighter s t b i).2 ≤ b.2 ∧ ((s.cpus i).coreType = t → (lighter s t b i).2 ≤ (s.cpus i).queueCount) := by
      unfold lighter
      split
      · rename_i h
        refine ⟨?_, le_of_lt h.2, fun _ => le_refl _⟩
        rintro c ⟨⟩
        rfl
      · rename_i h; exact ⟨hb, le_refl _, fun ht => not_lt.1 fun hlt => h ⟨ht, hlt⟩⟩
    obtain ⟨h1, h2, h3⟩ := hstep
    obtain ⟨g1, g2, g3⟩ := foldl_lighter s t l (lighter s t b i) h1
    refine ⟨g1, le_trans g2 h2, fun j hj ht => ?_⟩
    rcases List.mem_cons.1 hj with rfl | hj
    · exact le_trans g2 (h3 ht)
    · exact g3 j hj ht

/-- `d` is a P-core with the smallest `queue_count`. -/
def LightestP (s : Kernel n) (d : Fin n) : Prop :=
  (s.cpus d).coreType = .coreP ∧ ∀ e, (s.cpus e).coreType = .coreP → (s.cpus d).queueCount ≤ (s.cpus e).queueCount

theorem getLightestPCore_some (hd : getLightestPCore s = some d) : LightestP s d := by
  have hb : ∀ c, (none : Option (Fin n)) = some c → (0x7FFFFFFF : Int) = (s.cpus c).queueCount := by
    intro c h; cases h
  obtain ⟨h1, -, h3⟩ := foldl_lighter s .coreP (List.finRange n) (none, 0x7FFFFFFF) hb
  refine ⟨(lightest_spec s .coreP).1 d hd, fun e he => ?_⟩
  rw [← h1 d hd]
  exact h3 e (List.mem_finRange e) he

/-- On well-formed queues it returns 0 only when there is no P-core. -/
theorem QInv.getLightestPCore_none (h : QInv s q) (hd : getLightestPCore s = none) (e : Fin n) :
    (s.cpus e).coreType ≠ .coreP := by
  intro he
  apply (lightest_spec s .coreP).2 hd e he
  have hle := h.length_le e
  have hn : NPROC = 64 := rfl
  rw [h.count]
  omega

/-! ## One call -/

/-- The threshold of `load_balance` is met: the queue of `c` is at least three longer than a shortest
queue of a P-core. -/
def Overloaded (s : Kernel n) (c : Fin n) : Prop :=
  ∃ d, LightestP s d ∧ (s.cpus c).queueCount ≥ (s.cpus d).queueCount + 3

/-- `v` goes from the queue of `c` to the tail of the queue of `d`. -/
def moveTo (q : Fin n → List Slot) (c d : Fin n) (v : Slot) : Fin n → List Slot :=
  update (update q c ((q c).erase v)) d (q d ++ [v])

/-- What `load_balance` on `c` does to the queues: nothing, when the threshold is not met or nothing is
movable; otherwise the first movable process of `c` goes to a lightest P-core. -/
inductive Rebalance (s : Kernel n) (c : Fin n) (q : Fin n → List Slot) : (Fin n → List Slot) → Prop
  | stay (h : ¬ Overloaded s c ∨ ∀ p ∈ q c, ¬ movable s p) : Rebalance s c q q
  | move (d : Fin n) (v : Slot) (hd : LightestP s d) (hover : (s.cpus c).queueCount ≥ (s.cpus d).queueCount + 3)
      (hv : (q c).find? (movable s) = some v) : Rebalance s c q (moveTo q c d v)

theorem LightestP.not_overloaded (hd : LightestP s d) (hn : ¬ (s.cpus c).queueCount ≥ (s.cpus d).queueCount + 3) :
    ¬ Overloaded s c := by
  rintro ⟨e, he, hce⟩
  have hde := hd.2 e he.1
  omega

theorem LightestP.ne (hd : LightestP s d) (hc : (s.cpus c).coreType = .coreE) : d ≠ c := by
  rintro rfl
  have := hd.1
  rw [hc] at this
  cases this

theorem loadBalance_rebalance (h : QInv s q) (hc : (s.cpus c).coreType = .coreE) :
    ∃ s' q', loadBalance s c = some s' ∧ QInv s' q' ∧ Rebalance s c q q' := by
  unfold loadBalance
  rw [if_neg (not_not.2 hc)]
  rcases hd : getLightestPCore s with _ | d
  · refine ⟨s, q, rfl, h, .stay (.inl ?_)⟩
    rintro ⟨d, hl, -⟩
    exact h.getLightestPCore_none hd d hl.1
  have hl := getLightestPCore_some hd
  dsimp only
  by_cases hover : (s.cpus c).queueCount ≥ (s.cpus d).queueCount + 3
  · rw [if_pos hover, find_victim h c]
    rcases hv : (q c).find? (movable s) with _ | v
    · refine ⟨s, q, rfl, h, .stay (.inr ?_)⟩
      exact List.find?_eq_none.1 hv
    · have hmem := List.mem_of_find?_eq_some hv
      obtain ⟨s1, e1, h1⟩ := dequeue_spec h hmem
      have hv1 : ∀ e, v ∉ update q c ((q c).erase v) e := fun e he =>
        ((h.listed_erase hmem).1 ⟨e, he⟩).2 rfl
      obtain ⟨s2, e2, h2⟩ := enqueue_spec h1 d hv1
      rw [update_of_ne (hl.ne hc)] at h2
      simp only [Option.bind_eq_bind, Option.bind_some, e1, e2]
      exact ⟨s2, _, rfl, h2, .move d v hl hover hv⟩
  · rw [if_neg hover]; exact ⟨s, q, rfl, h, .stay (.inl (hl.not_overloaded hover))⟩

theorem Rebalance.balanced (hr : Rebalance s c q q') (hc : (s.cpus c).coreType = .coreE) : Balanced s c q q' := by
  cases hr with
  | stay h => exact .inl rfl
  | move d v hd hover hv =>
    have hmov : (s.proc v).state = .runnable ∧ (s.proc v).pid > 2 := by simpa [movable] using List.find?_some hv
    exact .inr ⟨d, v, hc, hd.1, List.mem_of_find?_eq_some hv, hmov.2, rfl⟩

theorem moveTo_length (h : QInv s q) (hc : (s.cpus c).coreType = .coreE) {v : Slot} (hd : LightestP s d)
    (hover : (s.cpus c).queueCount ≥ (s.cpus d).queueCount + 3) (hv : v ∈ q c) :
    (moveTo q c d v c).length + 1 = (q c).length ∧ (moveTo q c d v d).length + 1 ≤ (moveTo q c d v c).length := by
  have hdc := hd.ne hc
  have hc' : moveTo q c d v c = (q c).erase v := by
    rw [moveTo, update_of_ne hdc.symm, update_self]
  have hd' : moveTo q c d v d = q d ++ [v] := by rw [moveTo, update_self]
  have hpos := List.length_pos_of_mem hv
  rw [h.count, h.count] at hover
  rw [hc', hd', List.length_erase_of_mem hv, List.length_append, List.length_singleton]
  omega

/-! ## Repeated calls -/

/-- `load_balance` called `k` times on `c`, nothing else running. -/
def loadBalances (c : Fin n) : Nat → Kernel n → Option (Kernel n)
  | 0, s => some s
  | k + 1, s => (loadBalance s c).bind (loadBalances c k)

/-- The end of rebalancing: the threshold is not met, or only init and sh are left on the queue. -/
def Settled (s : Kernel n) (c : Fin n) (q : Fin n → List Slot) : Prop :=
  ¬ Overloaded s c ∨ ∀ p ∈ q c, (s.proc p).pid ≤ 2

def AllRunnable (s : Kernel n) (q : Fin n → List Slot) : Prop := ∀ p, Listed q p → (s.proc p).state = .runnable

theorem AllRunnable.pid_le (hrun : AllRunnable s q) (hno : ∀ p ∈ q c, ¬ movable s p) :
    ∀ p ∈ q c, (s.proc p).pid ≤ 2 := by
  intro p hp
  have hm := hno p hp
  have hst := hrun p ⟨c, hp⟩
  simp only [movable, hst, true_and, decide_eq_true_eq] at hm
  omega

theorem loadBalance_kept (e : loadBalance s c = some s') (p : Slot) :
    (s'.proc p).state = (s.proc p).state ∧ (s'.proc p).pid = (s.proc p).pid := by
  obtain ⟨w, -⟩ := loadBalance_wakes e
  exact ⟨w.kept p (fun h => h.2), (w.agree p).pid⟩

/-- Each call that does not settle the queues shortens the queue of `c`, so some number of calls settles
them. -/
theorem loadBalances_settle : ∀ (m : Nat) {s : Kernel n} {q : Fin n → List Slot}, (q c).length ≤ m → QInv s q →
    AllRunnable s q → (s.cpus c).coreType = .coreE →
    ∃ k ≤ m, ∃ s' q', loadBalances c k s = some s' ∧ QInv s' q' ∧ Settled s' c q' := by
  intro m
  induction m with
  | zero =>
    intro s q hlen h _ _
    refine ⟨0, le_refl _, s, q, rfl, h, .inr fun p hp => ?_⟩
    rw [List.eq_nil_of_length_eq_zero (Nat.le_zero.1 hlen)] at hp
    cases hp
  | succ m ih =>
    intro s q hlen h hrun hc
    obtain ⟨s', q', e, h', hreb⟩ := loadBalance_rebalance h hc
    have hlisted := (hreb.balanced hc).listed h
    cases hreb with
    | stay hstay => exact ⟨0, Nat.zero_le _, s, q, rfl, h, hstay.imp_right hrun.pid_le⟩
    | move d v hd hover hv =>
      have hl := (moveTo_length h hc hd hover (List.mem_of_find?_eq_some hv)).1
      have hrun' : AllRunnable s' (moveTo q c d v) := by
        intro p hp; rw [(loadBalance_kept e p).1]; exact hrun p ((hlisted p).1 hp)
      have hc' : (s'.cpus c).coreType = .coreE := ((loadBalance_wakes e).1.cpu c).2.trans hc
      obtain ⟨k, hk, s2, q2, e2, h2, hs2⟩ := ih (by omega) h' hrun' hc'
      refine ⟨k + 1, Nat.succ_le_succ hk, s2, q2, ?_, h2, hs2⟩
      rw [loadBalances, e]
      exact e2

/-- `load_balance` by any E-core on any well-formed run queues: the processes queued stay the same, at
most one moves, exactly when the threshold is met and something is movable, and then from a queue that
stays longer than the one it goes to; every other field of the table stays; and calling it again and again
settles the queues. -/
theorem loadBalance_conserves_and_settles (h : QInv s q) (hrun : AllRunnable s q) (hc : (s.cpus c).coreType = .coreE) :
    (∃ s' q', loadBalance s c = some s' ∧ QInv s' q' ∧ AllRunnable s' q' ∧ (∀ p, Listed q' p ↔ Listed q p) ∧
      (∀ p, (s'.proc p).state = (s.proc p).state ∧ (s'.proc p).pid = (s.proc p).pid) ∧
      (q' = q ∧ Settled s c q ∨
        ∃ d v, LightestP s d ∧ (s.cpus c).queueCount ≥ (s.cpus d).queueCount + 3 ∧
          (q c).find? (fun p => (s.proc p).state = .runnable ∧ (s.proc p).pid > 2) = some v ∧
          q' = update (update q c ((q c).erase v)) d (q d ++ [v]) ∧
          (s'.cpus c).queueCount ≥ (s'.cpus d).queueCount + 1)) ∧
    ∃ k s' q', loadBalances c k s = some s' ∧ QInv s' q' ∧ Settled s' c q' := by
  constructor
  · obtain ⟨s', q', e, h', hreb⟩ := loadBalance_rebalance h hc
    have hlisted := (hreb.balanced hc).listed h
    refine ⟨s', q', e, h', fun p hp => ?_, hlisted, loadBalance_kept e, ?_⟩
    · rw [(loadBalance_kept e p).1]; exact hrun p ((hlisted p).1 hp)
    cases hreb with
    | stay hstay => exact .inl ⟨rfl, hstay.imp_right hrun.pid_le⟩
    | move d v hd hover hv =>
      refine .inr ⟨d, v, hd, hover, hv, rfl, ?_⟩
      have hl := (moveTo_length h hc hd hover (List.mem_of_find?_eq_some hv)).2
      rw [h'.count, h'.count]
      omega
  · obtain ⟨k, -, s', q', e, h', hs⟩ := loadBalances_settle (q c).length (le_refl _) h hrun hc
    exact ⟨k, s', q', e, h', hs⟩

/-- The processes of `l`, numbered from 3 on, on the queue of `c`, and nothing else. -/
def loadedKernel (types : Fin n → CoreType) (c : Fin n) (l : List Slot) : Kernel n :=
  { bootKernel types with
    proc := fun p => if p ∈ l then { state := .runnable, pid := 3 + p.val, nextRun := l[l.idxOf p + 1]? } else {}
    cpus := fun d =>
      if d = c then { coreType := types d, runq := l.head?, queueCount := l.length } else { coreType := types d } }

/-- Three processes on an E-core beside an idle P-core: the first moves, and the queues settle. -/
theorem loadBalance_three_queued :
    QInv (loadedKernel ![.coreE, .coreP] 0 [0, 1, 2]) ![[0, 1, 2], []] ∧
    AllRunnable (loadedKernel ![.coreE, .coreP] 0 [0, 1, 2]) ![[0, 1, 2], []] ∧
    ∃ k s' q', loadBalances 0 k (loadedKernel ![.coreE, .coreP] 0 [0, 1, 2]) = some s' ∧
      QInv s' q' ∧ Settled s' 0 q' := by
  have hq : QInv (loadedKernel ![.coreE, .coreP] 0 [0, 1, 2]) ![[0, 1, 2], []] := by
    refine ⟨fun c => ?_, by decide, by decide⟩
    fin_cases c
    · exact ⟨rfl, rfl, rfl, rfl⟩
    · rfl
  have hrun : AllRunnable (loadedKernel ![.coreE, .coreP] 0 [0, 1, 2]) ![[0, 1, 2], []] := by
    rintro p ⟨c, hp⟩
    revert c p
    decide
  exact ⟨hq, hrun, (loadBalance_conserves_and_settles hq hrun rfl).2⟩

end Xv6.Sched
