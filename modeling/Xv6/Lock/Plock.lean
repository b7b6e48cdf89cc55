/-
The priority lock of `spinlock.c` over the scheduling steps. A process that finds the lock taken
links a node and sleeps once, on its own `struct proc`; `plock_release` hands the lock to the
waiter of highest priority and wakes that channel. The same channel is used by `wait` and `exit`,
so the exit of a child can wake a waiter that was not handed the lock: in the runs in which no exit
does, at most one process is past its `plock_acquire` and it is `pl->owner`.
-/
import Xv6.Sched.Step

namespace Xv6.Lock

open Base Sched

variable {n : Nat}

/-! ## The lock -/

/-- `struct plock_node`, without its link: the nodes are a list. -/
structure PlockNode where
  proc : Slot
  priority : Int
  deriving DecidableEq, Repr

structure Plock where
  locked : Bool := false
  head : List PlockNode := []
  owner : Option Slot := none
  deriving DecidableEq, Repr

/-- Where a process is: outside, asleep or on its way back in `plock_acquire`, or past it. -/
inductive PlockPc
  | idle
  | waiting
  | holding
  deriving DecidableEq, Repr

/-- The kernel with one priority lock. -/
structure PlockSys (n : Nat) where
  k : Kernel n
  pl : Plock
  pc : Slot → PlockPc

def PlockSys.setPc (s : PlockSys n) (p : Slot) (x : PlockPc) : PlockSys n := { s with pc := Function.update s.pc p x }

/-- `plock_acquire` by process `p` on CPU `c`, up to its return or to the switch inside `sleep`. -/
def plockAcquire (s : PlockSys n) (c : Fin n) (p : Slot) (priority : Int) : Option (PlockSys n) :=
  if s.pl.locked = false then
    some ({ s with pl := { s.pl with locked := true, owner := some p } }.setPc p .holding)
  else do
    let pl := { s.pl with head := ⟨p, priority⟩ :: s.pl.head }
    let k ← sleep s.k c (some (.proc p))
    some ({ s with k := k, pl := pl }.setPc p .waiting)

/-- The scan of `plock_release`: the place of the node of highest priority, the first of equals, and
the node. The nodes from place `i` on are still to be read. -/
def scan : List PlockNode → Nat → Nat × PlockNode → Nat × PlockNode
  | [], _, best => best
  | current :: l, i, best => scan l (i + 1) (if current.priority > best.2.priority then (i, current) else best)

/-- `plock_release` by process `p`; `none` is the panic of a process that is not the owner. -/
def plockRelease [NeZero n] (s : PlockSys n) (p : Slot) : Option (PlockSys n) :=
  if s.pl.owner ≠ some p then none
  else
    match s.pl.head with
    | [] => some ({ s with pl := { s.pl with locked := false, owner := none } }.setPc p .idle)
    | h :: l => do
      let (i, highest) := scan (h :: l) 0 (0, h)
      let pl := { s.pl with head := (h :: l).eraseIdx i, owner := some highest.proc }
      let k ← wakeup1 (some (.proc highest.proc)) s.k
      some ({ s with k := k, pl := pl }.setPc p .idle)

/-! ## Steps -/

/-- The steps: those of the kernel, the two calls, and the return of a waiter that runs again. -/
inductive PlockAct (n : Nat)
  | kern (a : Act n)
  | acquire (c : Fin n) (priority : Int)
  | acquireReturn (c : Fin n)
  | release (c : Fin n)
  deriving DecidableEq, Repr

/-- The process running on `c` is not inside `plock_acquire`. -/
def Outside (s : PlockSys n) (c : Fin n) : Prop := ∀ p, (s.k.cpus c).proc = some p → s.pc p ≠ .waiting

instance (s : PlockSys n) (c : Fin n) : Decidable (Outside s c) := by
  unfold Outside; infer_instance

def Chan.isProc : Chan → Bool
  | .proc _ => true
  | _ => false

/-- A process inside `plock_acquire` makes no system call, and the address of a process is a channel
for `wait`, `exit` and this lock only. -/
def mayAct (s : PlockSys n) : Act n → Bool
  | .forkAlloc c | .kill c _ | .exit c | .wait c => Outside s c
  | .sleep c chan => Outside s c ∧ Chan.isProc chan = false
  | .wakeup chan => Chan.isProc chan = false
  | _ => true

/-- A process that exits is gone from the lock's code. -/
def pcAfter (s : PlockSys n) : Act n → Slot → PlockPc
  | .exit c, r => if (s.k.cpus c).proc = some r then .idle else s.pc r
  | _, r => s.pc r

def plockStep [NeZero n] (s : PlockSys n) : PlockAct n → Option (PlockSys n)
  | .kern a => if mayAct s a then (step s.k a).map fun k => { s with k := k, pc := pcAfter s a } else none
  | .acquire c priority =>
    (caller s.k c).bind fun p => if s.pc p = .idle then plockAcquire s c p priority else none
  | .acquireReturn c =>
    (caller s.k c).bind fun p => if s.pc p = .waiting then some (s.setPc p .holding) else none
  | .release c => (caller s.k c).bind fun p => if s.pc p = .holding then plockRelease s p else none

/-- After `plock_init`, before `userinit`. -/
def plockInit (types : Fin n → CoreType) : PlockSys n := { k := bootKernel types, pl := {}, pc := fun _ => .idle }

/-- The step is no exit that wakes a process asleep in `plock_acquire`. -/
def ExitsWakeNoWaiter (s : PlockSys n) (a : PlockAct n) : Prop :=
  ∀ c p r, a = .kern (.exit c) → (s.k.cpus c).proc = some p → s.pc r = .waiting → (s.k.proc r).state = .sleeping →
    ¬ ExitWakes s.k p r

/-! ## The scan -/

/-- The scan ends on a node of the list at the place it names, of the highest priority. -/
theorem scan_spec : ∀ (l pre : List PlockNode) (best : Nat × PlockNode), (pre ++ l)[best.1]? = some best.2 →
    (∀ x ∈ pre, x.priority ≤ best.2.priority) →
    (pre ++ l)[(scan l pre.length best).1]? = some (scan l pre.length best).2 ∧
      ∀ x ∈ pre ++ l, x.priority ≤ (scan l pre.length best).2.priority
  | [], pre, best, h1, h2 => ⟨h1, by simpa [scan] using h2⟩
  | a :: l, pre, best, h1, h2 => by
    have hstep : scan (a :: l) pre.length best =
        scan l (pre ++ [a]).length (if a.priority > best.2.priority then (pre.length, a) else best) := by
      simp [scan]
    have happ : pre ++ a :: l = (pre ++ [a]) ++ l := by simp
    rw [hstep, happ]
    refine scan_spec l (pre ++ [a]) _ ?_ ?_
    · split
      · simp
      · rw [← happ]; exact h1
    · intro x hx
      rcases List.mem_append.1 hx with hx | hx
      · have := h2 x hx
        split
        · simp only; omega
        · exact this
      · obtain rfl := List.mem_singleton.1 hx
        split
        · exact le_rfl
        · omega

theorem scan_head (h : PlockNode) (l : List PlockNode) :
    (h :: l)[(scan (h :: l) 0 (0, h)).1]? = some (scan (h :: l) 0 (0, h)).2 ∧
      ∀ x ∈ h :: l, x.priority ≤ (scan (h :: l) 0 (0, h)).2.priority :=
  scan_spec (h :: l) [] (0, h) rfl (by simp)

theorem nodup_eraseIdx {l : List PlockNode} {i : Nat} {x : PlockNode} (hn : (l.map PlockNode.proc).Nodup)
    (hx : l[i]? = some x) :
    ((l.eraseIdx i).map PlockNode.proc).Nodup ∧ ∀ y ∈ l.eraseIdx i, y ∈ l ∧ y.proc ≠ x.proc := by
  obtain ⟨hi, hx⟩ := List.getElem?_eq_some_iff.1 hx
  have hsplit : l = l.take i ++ x :: l.drop (i + 1) := by
    rw [← hx, List.getElem_cons_drop, List.take_append_drop]
  have herase : l.eraseIdx i = l.take i ++ l.drop (i + 1) := List.eraseIdx_eq_take_drop_succ ..
  rw [hsplit, List.map_append, List.map_cons, List.nodup_middle, List.nodup_cons, ← List.map_append, ← herase] at hn
  refine ⟨hn.2, fun y hy => ⟨List.mem_of_mem_eraseIdx hy, fun e => hn.1 ?_⟩⟩
  rw [← e]
  exact List.mem_map_of_mem hy

/-! ## The invariant -/

structure PInv (s : PlockSys n) (q : Fin n → List Slot) : Prop where
  kern : Inv false s.k q
  alive : ∀ p, s.pc p ≠ .idle → Alive s.k p
  cs : ∀ p, s.pc p = .holding → s.pl.owner = some p ∧ s.pl.locked = true
  grant : ∀ p, s.pc p = .waiting → Active s.k q p → s.pl.owner = some p ∧ s.pl.locked = true
  node : ∀ x ∈ s.pl.head, s.pc x.proc = .waiting ∧ ¬ Active s.k q x.proc
  nodup : (s.pl.head.map PlockNode.proc).Nodup
  own : ∀ r x, (s.k.proc r).chan = some (.proc x) → r = x
  chan : ∀ r, s.pc r = .waiting → (s.k.proc r).state = .sleeping → (s.k.proc r).chan = some (.proc r)

variable {s s' : PlockSys n} {q q' : Fin n → List Slot} {p : Slot} {c : Fin n}

theorem pinv_init (types : Fin n → CoreType) : PInv (plockInit types) fun _ => [] := by
  refine ⟨inv_boot false types, ?_, ?_, ?_, ?_, ?_, ?_, ?_⟩
  all_goals simp [plockInit, bootKernel]

/-- A kernel step that wakes no waiter other than the one that owns the lock, and puts no waiter to
sleep elsewhere. -/
theorem PInv.frame (h : PInv s q) {k : Kernel n} {pc : Slot → PlockPc} {A X : Slot → Prop}
    {E : Slot → Option Chan → Prop} (hk : Inv false k q') (f : Frame s.k q k q' A X E)
    (hpc : ∀ r, pc r = s.pc r ∨ (pc r = .idle ∧ s.pc r ≠ .waiting)) (hX : ∀ r, X r → pc r = .idle)
    (hA : ∀ r, s.pc r = .waiting → A r →
      (s.pl.owner = some r ∧ s.pl.locked = true) ∧ ∀ x ∈ s.pl.head, x.proc ≠ r)
    (hE : ∀ r ch, E r ch → s.pc r ≠ .waiting ∧ ∀ x, ch = some (.proc x) → r = x) :
    PInv { s with k := k, pc := pc } q' := by
  have hne : ∀ r y, y ≠ .idle → pc r = y → s.pc r = y := fun r y hy hr => by
    rcases hpc r with e | ⟨e, -⟩
    · exact e.symm.trans hr
    · exact absurd (hr.symm.trans e) hy
  refine ⟨hk, fun r hr => ?_, fun r hr => ?_, fun r hr ha => ?_, fun x hx => ?_, h.nodup,
    fun r x hr => ?_, fun r hr hs => ?_⟩
  · have hidle : s.pc r ≠ .idle := by rw [hne r _ hr rfl]; exact hr
    rcases f.alive r (h.alive r hidle) with ha | hx
    · exact ha
    · exact absurd (hX r hx) hr
  · exact h.cs r (hne r .holding nofun hr)
  · have hw := hne r .waiting nofun hr
    rcases f.active r ha with ha | ha
    · exact h.grant r hw ha
    · exact (hA r hw ha).1
  · obtain ⟨hw, hna⟩ := h.node x hx
    refine ⟨?_, fun ha => ?_⟩
    · rcases hpc x.proc with e | ⟨-, e⟩
      · exact e.trans hw
      · exact absurd hw e
    · rcases f.active x.proc ha with ha | ha
      · exact hna ha
      · exact (hA x.proc hw ha).2 x hx rfl
  · rcases f.chan r with e | e | e
    · exact h.own r x (e.symm.trans hr)
    · rw [show (k.proc r).chan = none from e] at hr; cases hr
    · exact (hE r _ e).2 x hr
  · have hw := hne r .waiting nofun hr
    rcases f.sleeping r hs with ⟨h1, h2⟩ | e
    · exact h2.trans (h.chan r hw h1)
    · exact absurd hw (hE r _ e).1

theorem PInv.idle_of_embryo (h : PInv s q) (hp : (s.k.proc p).state = .embryo) : s.pc p = .idle := by
  by_contra hne
  rcases h.alive p hne with e | e | e
  all_goals rw [hp] at e; cases e

theorem outside_of_may {a : Act n} (ha : mayAct s a = true) (hc : a = .exit c ∨ a = .wait c ∨ ∃ ch, a = .sleep c ch)
    (hp : (s.k.cpus c).proc = some p) : s.pc p ≠ .waiting := by
  rcases hc with rfl | rfl | ⟨ch, rfl⟩
  · exact of_decide_eq_true ha p hp
  · exact of_decide_eq_true ha p hp
  · exact (of_decide_eq_true ha).1 p hp

theorem PInv.move (h : PInv s q) {x : PlockPc} {pl : Plock}
    (hown : ∀ r, r ≠ p → s.pl.owner = some r ∧ s.pl.locked = true → pl.owner = some r ∧ pl.locked = true)
    (hnode : ∀ y ∈ pl.head, if y.proc = p then x = .waiting else y ∈ s.pl.head)
    (hn : (pl.head.map PlockNode.proc).Nodup) (halive : x ≠ .idle → Alive s.k p)
    (hcs : x = .holding → pl.owner = some p ∧ pl.locked = true)
    (hwait : x = .waiting → ¬ Active s.k q p ∧ (s.k.proc p).chan = some (.proc p)) :
    PInv ({ s with pl := pl }.setPc p x) q := by
  refine ⟨h.kern, fun r hr => ?_, fun r hr => ?_, fun r hr ha => ?_, fun y hy => ?_, hn, h.own, fun r hr hs => ?_⟩
  all_goals simp only [PlockSys.setPc, Function.update_apply] at *
  · split at hr
    · subst ‹r = p›; exact halive hr
    · exact h.alive r hr
  · split at hr
    · subst ‹r = p›; exact hcs hr
    · exact hown r ‹_› (h.cs r hr)
  · split at hr
    · subst ‹r = p›; exact absurd ha (hwait hr).1
    · exact hown r ‹_› (h.grant r hr ha)
  · have hy := hnode y hy
    split at hy
    · rename_i e; rw [if_pos e, e]; exact ⟨hy, (hwait hy).1⟩
    · rw [if_neg ‹_›]; exact h.node y hy
  · split at hr
    · subst ‹r = p›; exact (hwait hr).2
    · exact h.chan r hr hs

theorem PInv.acquire (h : PInv s q) (hp : (s.k.cpus c).proc = some p) (hi : s.pc p = .idle) {priority : Int}
    (hs : plockAcquire s c p priority = some s') : PInv s' q := by
  have hout : ∀ y ∈ s.pl.head, y.proc ≠ p := fun y hy e => by
    have hw := (h.node y hy).1; rw [e, hi] at hw; cases hw
  unfold plockAcquire at hs
  split at hs
  · -- the lock is free, so nobody else holds or was handed it
    rename_i hfree
    cases hs
    refine h.move (fun r _ hr => ?_) (fun y hy => ?_) h.nodup (fun _ => .inr (.inr ((h.kern.running p).2 ⟨c, hp⟩)))
      (fun _ => ⟨rfl, rfl⟩) nofun
    · rw [hfree] at hr; cases hr.2
    · rw [if_neg (hout y hy)]; exact hy
  · -- the process queues itself and sleeps on its own channel
    obtain ⟨e1, hI, f⟩ := h.kern.sleep hp (A := fun _ => False) (X := fun _ => False)
      (E := fun r ch => r = p ∧ ch = some (.proc p)) (some (.proc p)) ⟨rfl, rfl⟩
    generalize hk : (s.k.modProc p _).idle c = k at e1 hI f
    have hsl : (k.proc p).state = .sleeping := by rw [← hk]; simp
    have hch : (k.proc p).chan = some (.proc p) := by rw [← hk]; simp
    simp only [e1, Option.bind_eq_bind, Option.bind_some] at hs
    cases hs
    have h1 : PInv { s with k := k, pc := s.pc } q := by
      refine h.frame hI f (fun _ => .inl rfl) (fun _ hr => hr.elim) (fun _ _ hr => hr.elim) ?_
      rintro r ch ⟨rfl, rfl⟩
      refine ⟨by rw [hi]; nofun, fun x hx => ?_⟩
      cases hx; rfl
    have hna : ¬ Active k q p := by
      rintro (hl | hl)
      · exact hI.not_listed (by simp [hsl]) hl
      · rw [hsl] at hl; cases hl
    refine h1.move (fun _ _ => id) (fun y hy => ?_) ?_ (fun _ => .inl hsl) nofun fun _ => ⟨hna, hch⟩
    · rcases List.mem_cons.1 hy with rfl | hy
      · exact (if_pos rfl).mpr rfl
      · rw [if_neg (hout y hy)]; exact hy
    · rw [List.map_cons, List.nodup_cons]
      refine ⟨fun hm => ?_, h.nodup⟩
      obtain ⟨y, hy, e⟩ := List.mem_map.1 hm
      exact hout y hy e

theorem PInv.acquireReturn (h : PInv s q) (hp : (s.k.cpus c).proc = some p) (hw : s.pc p = .waiting) :
    PInv (s.setPc p .holding) q := by
  have hrun : (s.k.proc p).state = .running := (h.kern.running p).2 ⟨c, hp⟩
  refine h.move (fun _ _ => id) (fun y hy => ?_) h.nodup (fun _ => .inr (.inr hrun))
    (fun _ => h.grant p hw (.inr hrun)) nofun
  rw [if_neg]
  · exact hy
  · rintro rfl; exact (h.node y hy).2 (.inr hrun)

theorem PInv.leave (h : PInv s q) (hh : s.pc p = .holding) (pl : Plock) (hn : (pl.head.map PlockNode.proc).Nodup)
    (hsub : ∀ x ∈ pl.head, x ∈ s.pl.head) : PInv ({ s with pl := pl }.setPc p .idle) q := by
  refine h.move (fun r e hr => ?_) (fun y hy => ?_) hn (fun e => absurd rfl e) nofun nofun
  · rw [(h.cs p hh).1] at hr; exact absurd (Option.some.inj hr.1).symm e
  · rw [if_neg]
    · exact hsub y hy
    · rintro rfl; have hw := (h.node y (hsub y hy)).1; rw [hh] at hw; cases hw

section

variable [NeZero n]

theorem PInv.kernStep (h : PInv s q) {a : Act n} {k : Kernel n} (hm : mayAct s a = true)
    (hok : ExitsWakeNoWaiter s (.kern a)) (hk : step s.k a = some k) :
    ∃ q', PInv { s with k := k, pc := pcAfter s a } q' := by
  obtain ⟨q', hI, f, -⟩ := step_spec h.kern nofun hk
  refine ⟨q', h.frame hI f (fun r => ?_) (fun r hr => ?_) (fun r hw hr => ?_) fun r ch hr => ?_⟩
  · cases a with
    | exit c =>
      simp only [pcAfter]
      split
      · exact .inr ⟨rfl, outside_of_may hm (.inl rfl) ‹_›⟩
      · exact .inl rfl
    | _ => exact .inl rfl
  · cases a with
    | exit c => exact if_pos hr
    | _ => exact hr.elim
  · -- who a step wakes is no waiter
    exfalso
    cases a with
    | userinitRun =>
      have := h.idle_of_embryo (h.kern.embryo r (.inl hr)); rw [hw] at this; cases this
    | forkRun c =>
      obtain ⟨p, -, hp⟩ := hr
      have := h.idle_of_embryo (h.kern.embryo r (.inr ⟨p, by rw [hp]; rfl⟩))
      rw [hw] at this; cases this
    | wakeup ch =>
      have hc := h.chan r hw hr.1
      rw [hr.2] at hc
      cases hc
      cases hm
    | exit c => obtain ⟨hs, p, hp, hx⟩ := hr; exact hok c p r rfl hp hw hs hx
    | _ => exact hr.elim
  · cases a with
    | sleep c chan =>
      refine ⟨outside_of_may hm (.inr (.inr ⟨chan, rfl⟩)) hr.1, fun x hx => ?_⟩
      rw [hr.2] at hx
      cases hx
      exact absurd (of_decide_eq_true hm).2 (by simp [Chan.isProc])
    | wait c =>
      refine ⟨outside_of_may hm (.inr (.inl rfl)) hr.1, fun x hx => ?_⟩
      rw [hr.2] at hx
      cases hx
      rfl
    | _ => exact hr.elim

/-- `plock_release` by a holder returns: it does not panic, and it keeps the invariant. -/
theorem PInv.release (h : PInv s q) (hh : s.pc p = .holding) : ∃ s' q', plockRelease s p = some s' ∧ PInv s' q' := by
  obtain ⟨ho, hl⟩ := h.cs p hh
  unfold plockRelease
  rw [if_neg (by simp [ho])]
  rcases hhd : s.pl.head with _ | ⟨hd, l⟩
  · exact ⟨_, q, rfl, h.leave hh _ (by simp [hhd]) (by simp [hhd])⟩
  · obtain ⟨hscan, -⟩ := scan_head hd l
    have hnd := h.nodup
    rw [hhd] at hnd
    obtain ⟨hn, hsub⟩ := nodup_eraseIdx hnd hscan
    have h1 := h.leave hh
      { s.pl with
        head := (hd :: l).eraseIdx (scan (hd :: l) 0 (0, hd)).1
        owner := some (scan (hd :: l) 0 (0, hd)).2.proc } hn fun x hx => by rw [hhd]; exact (hsub x hx).1
    obtain ⟨k, q', e, hI, hlist⟩ := h.kern.wakeup1 (some (.proc (scan (hd :: l) 0 (0, hd)).2.proc))
    obtain ⟨w, -⟩ := wakeup1_wakes e
    simp only [e, Option.bind_eq_bind, Option.bind_some]
    refine ⟨_, q', rfl, h1.frame (k := k) (A := fun r => (s.k.proc r).state = .sleeping ∧
        (s.k.proc r).chan = some (.proc (scan (hd :: l) 0 (0, hd)).2.proc)) (X := fun _ => False)
      (E := fun _ _ => False) hI (w.frame fun r hr => ?_) (fun _ => .inl rfl) (fun _ hr => hr.elim) (fun r _ hr => ?_)
      fun _ _ hr => hr.elim⟩
    · rcases hlist.listed hr with hr | hr
      · exact .inl (.inl hr)
      · exact .inr hr
    · -- only the chosen process sleeps on its own channel
      have hrh := h.own r _ hr.2
      refine ⟨⟨by rw [hrh]; rfl, hl⟩, fun x hx => ?_⟩
      rw [hrh]
      exact (hsub x hx).2

theorem pinv_step (h : PInv s q) {a : PlockAct n} (hok : ExitsWakeNoWaiter s a) (hs : plockStep s a = some s') :
    ∃ q', PInv s' q' := by
  cases a with
  | kern a =>
    simp only [plockStep] at hs
    split at hs
    · obtain ⟨k, hk, rfl⟩ := Option.map_eq_some_iff.1 hs; exact h.kernStep ‹_› hok hk
    · cases hs
  | acquire c priority =>
    obtain ⟨p, hp, hs⟩ := Option.bind_eq_some_iff.1 hs
    split at hs
    · exact ⟨q, h.acquire (caller_eq_some hp).1 ‹_› hs⟩
    · cases hs
  | acquireReturn c =>
    obtain ⟨p, hp, hs⟩ := Option.bind_eq_some_iff.1 hs
    split at hs
    · cases hs; exact ⟨q, h.acquireReturn (caller_eq_some hp).1 ‹_›⟩
    · cases hs
  | release c =>
    obtain ⟨p, -, hs⟩ := Option.bind_eq_some_iff.1 hs
    split at hs
    · obtain ⟨s1, q', e, hI⟩ := h.release ‹_›
      rw [e] at hs; cases hs
      exact ⟨q', hI⟩
    · cases hs

/-! ## Mutual exclusion -/

/-- In a run in which no exit wakes a process asleep in `plock_acquire`, at most one process is past
its `plock_acquire`, that process is the owner, and its `plock_release` does not panic. -/
theorem plock_mutual_exclusion (types : Fin n → CoreType) (s : PlockSys n)
    (hr : Reach (· = plockInit types) plockStep ExitsWakeNoWaiter s) :
    (∀ p r, s.pc p = .holding → s.pc r = .holding → p = r) ∧
      ∀ p, s.pc p = .holding → s.pl.owner = some p ∧ plockRelease s p ≠ none := by
  obtain ⟨q, h⟩ : ∃ q, PInv s q := by
    refine Reach.inv (P := fun s => ∃ q, PInv s q) ?_ ?_ hr
    · rintro s rfl; exact ⟨_, pinv_init types⟩
    · rintro s a s' ⟨q, h⟩ hok hs; exact pinv_step h hok hs
  refine ⟨fun p r hp hr => ?_, fun p hp => ⟨(h.cs p hp).1, ?_⟩⟩
  · have h1 := (h.cs p hp).1
    rw [(h.cs r hr).1] at h1
    exact (Option.some.inj h1).symm
  · obtain ⟨s', q', e, -⟩ := h.release hp; rw [e]; nofun

end

/-- The three steps of a successful `fork` on CPU `c`. -/
def forkSteps (c : Fin n) : List (PlockAct n) := [.kern (.forkAlloc c), .kern (.forkCopy c), .kern (.forkRun c)]

/-- Init forks; its child takes the lock, and init has to wait for it. -/
theorem plock_mutual_exclusion_contended :
    ∃ s : PlockSys 1, Reach (· = plockInit mpmainTypes) plockStep ExitsWakeNoWaiter s ∧
    s.pc 0 = .waiting ∧ s.pc 1 = .holding ∧ s.pl.owner = some 1 ∧ plockRelease s 1 ≠ none := by
  have hrun : (runActs plockStep (plockInit mpmainTypes)
      ([.kern .userinitAlloc, .kern .userinitRun, .kern (.scheduler 0)] ++
      forkSteps 0 ++ [.kern (.yield 0), .kern (.scheduler 0), .acquire 0 3, .kern (.yield 0), .kern (.scheduler 0),
      .acquire 0 5])).any (fun s : PlockSys 1 => s.pc 0 = .waiting ∧ s.pc 1 = .holding) = true := by decide +kernel
  obtain ⟨s, hr, hs⟩ := exists_reach_of_run (· = plockInit mpmainTypes) ExitsWakeNoWaiter rfl _
    (by simp [ExitsWakeNoWaiter, forkSteps]) _ hrun
  obtain ⟨h0, h1⟩ := of_decide_eq_true hs
  exact ⟨s, hr, h0, h1, (plock_mutual_exclusion mpmainTypes s hr).2 1 h1⟩

/-- A process forks two children; one takes the lock, the parent waits for it, and the exit of the
other wakes the parent. -/
def childExitRun (c : Fin n) : List (PlockAct n) :=
  ([.kern .userinitAlloc, .kern .userinitRun, .kern (.scheduler c)] : List (PlockAct n)) ++ forkSteps c ++
  ([.kern (.wait c), .kern (.scheduler c)] : List (PlockAct n)) ++ forkSteps c ++ forkSteps c ++
  ([.kern (.yield c), .kern (.scheduler c), .acquire c 5,
   .kern (.yield c), .kern (.scheduler c),
   .kern (.yield c), .kern (.scheduler c), .acquire c 1, .kern (.scheduler c),
   .kern (.yield c), .kern (.scheduler c), .kern (.exit c), .kern (.scheduler c),
   .kern (.yield c), .kern (.scheduler c), .acquireReturn c] : List (PlockAct n))

/-- Two processes past their `plock_acquire` at once, one of them not the owner. -/
theorem child_exit_breaks_plock :
    ∃ s : PlockSys 1, Reachable (· = plockInit mpmainTypes) plockStep s ∧
      s.pc 1 = .holding ∧ s.pc 2 = .holding ∧ s.pl.owner = some 2 ∧ plockRelease s 1 = none := by
  have hrun : (runActs plockStep (plockInit mpmainTypes) (childExitRun (0 : Fin 1))).any
      (fun s => s.pc 1 = .holding ∧ s.pc 2 = .holding ∧ s.pl.owner = some 2) = true := by decide +kernel
  obtain ⟨s, hr, hs⟩ := exists_reachable_of_run (· = plockInit mpmainTypes) rfl _ _ hrun
  simp only [Bool.decide_and, Bool.and_eq_true, decide_eq_true_eq] at hs
  obtain ⟨h1, h2, h3⟩ := hs
  have hne : s.pl.owner ≠ some 1 := by rw [h3]; decide
  exact ⟨s, hr, h1, h2, h3, if_pos hne⟩

end Xv6.Lock
