/-
Round robin on an E-core. Processes leave its queue by dispatch in the order in which they came: while
a process stays on the queue nobody gets before it, those before it only leave, and a dispatch takes
the first. The timer counts the ticks a process gets from its dispatch on; after `RR_QUANTUM_TICKS` of
them it must yield, to the tail of the queue, before the next interrupt can be taken.
-/
import Xv6.Sched.Clean
import Xv6.Sched.Fcfs
import Xv6.Smp.Code

namespace Xv6.Sched

open Base Function

variable {n : Nat} {b : Bool} {s s' : Kernel n} {q q' : Fin n → List Slot} {c : Fin n} {p r : Slot}
  {pre post : List Slot}

/-! ## The order of the queue -/

theorem QInv.not_behind (h : QInv s q) (hq : q c = pre ++ p :: post) : p ∉ post := by
  have hnd := (h.chain c).nodup
  rw [hq] at hnd
  exact (List.nodup_cons.1 (List.nodup_append.1 hnd).2.1).1

/-- `load_balance` may take processes away before or behind `p`. -/
theorem Balanced.ecore {d : Fin n} (h : QInv s q) (hb : Balanced s d q q') (hc : (s.cpus c).coreType = .coreE)
    (hq : q c = pre ++ p :: post) (hp : p ∈ q' c) :
    ∃ pre' post', q' c = pre' ++ p :: post' ∧ pre'.Sublist pre ∧ post'.Sublist post := by
  rcases hb with rfl | ⟨e, v, -, he, -, -, rfl⟩
  · exact ⟨pre, post, hq, .refl _, .refl _⟩
  · have hce : c ≠ e := by
      rintro rfl; rw [hc] at he; cases he
    rw [update_of_ne hce] at hp ⊢
    by_cases hcd : c = d
    · subst hcd
      rw [update_self] at hp ⊢
      have hnd := (h.chain c).nodup
      have hpv : p ≠ v := (hnd.mem_erase_iff.1 hp).1
      rw [hq]
      by_cases hv : v ∈ pre
      · exact ⟨pre.erase v, post, List.erase_append_left _ hv, List.erase_sublist, .refl _⟩
      · refine ⟨pre, post.erase v, ?_, .refl _, List.erase_sublist⟩
        rw [List.erase_append_right _ hv, List.erase_cons_tail (by simpa using hpv)]
    · rw [update_of_ne hcd]; exact ⟨pre, post, hq, .refl _, .refl _⟩

/-- While `p` stays on the queue of an E-core nobody gets before it. -/
theorem Moves.ecore (h : Inv b s q) (hm : Moves s q s' q') (hc : (s.cpus c).coreType = .coreE)
    (hq : q c = pre ++ p :: post) (hp : p ∈ q' c) : ∃ pre' post', q' c = pre' ++ p :: post' ∧ pre'.Sublist pre := by
  cases hm with
  | push hpush hcur =>
    obtain ⟨new, e, -⟩ := hpush c; exact ⟨pre, post ++ new, by rw [e, hq]; simp, .refl _⟩
  | yield d x hx he hcur =>
    by_cases hcd : c = d
    · subst hcd; exact ⟨pre, post ++ [x], by rw [he, update_self, hq]; simp, .refl _⟩
    · exact ⟨pre, post, by rw [he, update_of_ne hcd, hq], .refl _⟩
  | balance d hbal hcur =>
    obtain ⟨pre', post', e, hsub, -⟩ := hbal.ecore h.queues hc hq hp
    exact ⟨pre', post', e, hsub⟩
  | pick d q0 x pre1 post1 hd hbal hl hch he hcur =>
    by_cases hcd : c = d
    · subst hcd
      -- the head leaves, and it is not `p`
      unfold Chosen at hch
      rw [hc] at hch
      simp only at hch
      subst hch
      rw [he, update_self] at hp ⊢
      simp only [List.nil_append] at hl hp ⊢
      obtain ⟨pre', post', e, hsub, hsub'⟩ := hbal.ecore h.queues hc hq (by rw [hl]; exact .tail _ hp)
      rw [hl] at e
      cases pre' with
      | nil =>
        obtain ⟨rfl, rfl⟩ := List.cons.inj e
        exact absurd (hsub'.subset hp) (h.queues.not_behind hq)
      | cons y pre' =>
        obtain ⟨rfl, rfl⟩ := List.cons.inj e
        exact ⟨pre', post', rfl, (List.sublist_cons_self _ _).trans hsub⟩
    · rw [he, update_of_ne hcd] at hp ⊢
      obtain ⟨pre', post', e, hsub, -⟩ := hbal.ecore h.queues hc hq hp
      exact ⟨pre', post', e, hsub⟩

theorem Moves.dispatch_ecore (hm : Moves s q s' q') (hc : (s.cpus c).coreType = .coreE) (h0 : (s.cpus c).proc = none)
    (h1 : (s'.cpus c).proc = some r) : ∃ q0, Balanced s c q q0 ∧ q0 c = r :: q' c := by
  obtain ⟨q0, pre, post, hb, hl, hch, hq⟩ := hm.dispatched h0 h1
  unfold Chosen at hch
  rw [hc] at hch
  simp only at hch
  subst hch
  exact ⟨q0, hb, by rw [hl, hq]; rfl⟩

/-- A dispatch while `p` is on the queue of an E-core and is not moved away by it: the process taken stands
before `p` or is `p`, and when it is `p` nobody who stood before it is left. -/
theorem dispatch_order (h : Inv b s q) (hm : Moves s q s' q') (hc : (s.cpus c).coreType = .coreE)
    (h0 : (s.cpus c).proc = none) (h1 : (s'.cpus c).proc = some r) (hq : q c = pre ++ p :: post)
    (hp : p ∈ q' c ∨ r = p) : (r ∈ pre ∨ r = p) ∧ (r = p → ∀ x ∈ pre, x ∉ q' c) := by
  obtain ⟨q0, hbal, hl⟩ := hm.dispatch_ecore hc h0 h1
  have hp0 : p ∈ q0 c := by
    rw [hl]
    rcases hp with hp | rfl
    · exact .tail _ hp
    · exact .head _
  obtain ⟨pre0, post0, e, hsub, hsub'⟩ := hbal.ecore h.queues hc hq hp0
  have hnd := (h.queues.chain c).nodup
  rw [hq] at hnd
  rw [hl] at e
  cases pre0 with
  | nil =>
    obtain ⟨rfl, hpost⟩ := List.cons.inj e
    refine ⟨.inr rfl, fun _ x hx hx' => ?_⟩
    rw [hpost] at hx'
    exact (List.nodup_append.1 hnd).2.2 x hx x (.tail _ (hsub'.subset hx')) rfl
  | cons y pre0 =>
    obtain ⟨rfl, -⟩ := List.cons.inj e
    have hr : r ∈ pre := hsub.subset (.head _)
    refine ⟨.inl hr, ?_⟩
    rintro rfl
    exact absurd rfl ((List.nodup_append.1 hnd).2.2 r hr r (.head _))

/-! ## Ticks -/

section

variable {t t' : Life}

/-- Only the timer counts a tick for a running process; a dispatch starts at 0. -/
theorem fire_slice {e : Event} (hs : fire t e = some t') (he : ∀ k, e ≠ .slice k) (hr : (t'.entry p).state = .running) :
    ((t.entry p).state = .running → (t'.entry p).sliceTicks = (t.entry p).sliceTicks) ∧
    ((t.entry p).state ≠ .running → (t'.entry p).sliceTicks = 0) := by
  have hsame : (t'.entry p).state = (t.entry p).state → (t'.entry p).sliceTicks = (t.entry p).sliceTicks →
      ((t.entry p).state = .running → (t'.entry p).sliceTicks = (t.entry p).sliceTicks) ∧
      ((t.entry p).state ≠ .running → (t'.entry p).sliceTicks = 0) :=
    fun h1 h2 => ⟨fun _ => h2, fun hne => absurd (h1.symm.trans hr) hne⟩
  cases e with
  | quiet | childless _ | tick => cases hs; exact hsame rfl rfl
  | slice k => exact absurd rfl (he k)
  | userinit k | alloc _ k | start k | fail _ k | run _ k | yield k | sleep k _ | doze k | reap _ k =>
    obtain ⟨-, ⟨⟩⟩ := Option.ite_none_right_eq_some.1 hs
    by_cases e : p = k
    · subst e; simp [Life.alloc, Life.setFork, Life.mod] at hr
    · exact hsame (by simp [Life.alloc, Life.setFork, Life.mod, e]) (by simp [Life.alloc, Life.setFork, Life.mod, e])
  | copy _ k =>
    obtain ⟨-, ⟨⟩⟩ := Option.ite_none_right_eq_some.1 hs
    by_cases e : p = k
    · subst e; exact hsame (by simp [Life.setFork, Life.mod]) (by simp [Life.setFork, Life.mod])
    · exact hsame (by simp [Life.setFork, Life.mod, e]) (by simp [Life.setFork, Life.mod, e])
  | dispatch k =>
    obtain ⟨hk, ⟨⟩⟩ := Option.ite_none_right_eq_some.1 hs
    by_cases e : p = k
    · subst e
      exact ⟨fun h => absurd (h.symm.trans hk) (by decide), fun _ => by simp [Life.mod]⟩
    · exact hsame (by simp [Life.mod, e]) (by simp [Life.mod, e])
  | wakeup chan =>
    cases hs
    rcases t.wake_state p fun r => (t.entry r).chan = some chan with e | ⟨-, -, e⟩
    · exact hsame e (t.wake_rest p _).2.2.2.2
    · cases hr.symm.trans e
  | kill k =>
    cases hs
    by_cases e : p = k
    · subst e
      refine hsame ?_ (by simp [Life.mod])
      simp only [Life.mod, update_self] at hr ⊢
      split at hr
      · cases hr
      · rw [if_neg ‹_›]
    · exact hsame (by simp [Life.mod, e]) (by simp [Life.mod, e])
  | exit k =>
    obtain ⟨-, ⟨⟩⟩ := Option.ite_none_right_eq_some.1 hs
    by_cases e : p = k
    · subst e; simp [Life.exited, Life.mod] at hr
    · have hw : (t.exited k).entry p = ((t.wake (t.WokenByExit k)).orphan k).entry p := by
        simp [Life.exited, Life.mod, e]
      rw [hw] at hr
      rcases t.wake_state p (t.WokenByExit k) with e' | ⟨-, -, e'⟩
      · exact hsame (by rw [hw]; exact e') (by rw [hw]; exact (t.wake_rest p _).2.2.2.2)
      · cases hr.symm.trans e'

end

theorem event_slice [NeZero n] {a : Act n} {k : Slot} (he : event s a = .slice k) : ∃ c, a = .slice c := by
  cases a with
  | slice c => exact ⟨c, rfl⟩
  | _ =>
    exfalso
    simp only [event, forkEvent, Option.elim] at he
    repeat' split at he
    all_goals first | cases he | skip
    all_goals
      simp only [waitEvent] at he
      repeat' split at he
      all_goals cases he

theorem Moves.current (h : Inv b s q) (hm : Moves s q s' q') (hp : (s'.cpus c).proc = some p) :
    (s.cpus c).proc = some p ∨ (s.proc p).state = .runnable := by
  cases hm with
  | push hq hcur =>
    rcases hcur c with e | e
    · exact .inl (e.symm.trans hp)
    · rw [e] at hp; cases hp
  | yield d x hx hq hcur =>
    rw [hcur c] at hp
    split at hp
    · cases hp
    · exact .inl hp
  | balance d hq hcur => exact .inl ((hcur c).symm.trans hp)
  | pick d q0 x pre post hd hb hl hch hq hcur =>
    rw [hcur c] at hp
    split at hp
    · cases hp
      refine .inr (h.listed p ((hb.listed h.queues p).1 ⟨d, ?_⟩))
      rw [hl]
      simp
    · exact .inl hp

/-- The end of a timer interrupt on `c`: it changes the tick count of the process running there, and on an
E-core it makes the process yield when the count reaches the quantum. -/
theorem timerSlice_spec (h : Inv b s q) (c : Fin n) :
    Inv b (Smp.timerSlice s c).1 q ∧ (Smp.timerSlice s c).1.cpus = s.cpus ∧
    (∀ r, (s.cpus c).proc ≠ some r → ((Smp.timerSlice s c).1.proc r).sliceTicks = (s.proc r).sliceTicks) ∧
    ∀ p, (s.cpus c).proc = some p → (s.cpus c).coreType = .coreE →
      if (s.proc p).sliceTicks + 1 ≥ Smp.RR_QUANTUM_TICKS then (Smp.timerSlice s c).2 = true
      else (Smp.timerSlice s c).2 = false ∧ ((Smp.timerSlice s c).1.proc p).sliceTicks = (s.proc p).sliceTicks + 1 := by
  cases hp : (s.cpus c).proc with
  | none =>
    have e : Smp.timerSlice s c = (s, false) := by simp [Smp.timerSlice, sliceTick, hp]
    rw [e]
    exact ⟨h, rfl, fun _ _ => rfl, fun p hp' => by cases hp'⟩
  | some p =>
    have hrun : (s.proc p).state = .running := (h.running p).2 ⟨c, hp⟩
    have hslice : sliceTick s c = s.modProc p fun r => { r with sliceTicks := r.sliceTicks + 1 } := by
      simp [sliceTick, hp, hrun]
    have h1 : Inv b (sliceTick s c) q := by rw [hslice]; exact h.modProc_data rfl rfl
    have hother : ∀ r, some p ≠ some r → ((sliceTick s c).proc r).sliceTicks = (s.proc r).sliceTicks := fun r hr => by
      rw [hslice]
      have : r ≠ p := fun e => hr (by rw [e])
      simp [this]
    have hself : ((sliceTick s c).proc p).sliceTicks = (s.proc p).sliceTicks + 1 := by rw [hslice]; simp
    have hcpu : (sliceTick s c).cpus = s.cpus := by rw [hslice]; rfl
    have hst : ((sliceTick s c).proc p).state = .running := by rw [hslice]; simp [hrun]
    cases ht : (s.cpus c).coreType with
    | coreP =>
      have e : Smp.timerSlice s c = (sliceTick s c, true) := by simp [Smp.timerSlice, hcpu, hp, hst, ht]
      rw [e]
      exact ⟨h1, hcpu, hother, fun _ _ ht' => by cases ht'⟩
    | coreE =>
      by_cases hge : (s.proc p).sliceTicks + 1 ≥ Smp.RR_QUANTUM_TICKS
      · have e : Smp.timerSlice s c = ((sliceTick s c).modProc p fun r => { r with sliceTicks := 0 }, true) := by
          simp [Smp.timerSlice, hcpu, hp, hst, ht, hself, hge]
        rw [e]
        refine ⟨?_, hcpu, fun r hr => ?_, fun r hr _ => ?_⟩
        · exact h1.modProc_data (p := p) (f := fun r => { r with sliceTicks := 0 }) rfl rfl
        · have hrp : r ≠ p := fun e => hr (by rw [e])
          simpa [hrp] using hother r hr
        · cases hr; rw [if_pos hge]
      · have e : Smp.timerSlice s c = (sliceTick s c, false) := by simp [Smp.timerSlice, hcpu, hp, hst, ht, hself, hge]
        rw [e]
        refine ⟨h1, hcpu, hother, fun r hr _ => ?_⟩
        cases hr
        rw [if_neg hge]
        exact ⟨rfl, hself⟩

/-- The kernel with its timer interrupts. `due` is a CPU whose process must yield before the handler
returns; `got` counts the interrupts a CPU took since its process last changed. -/
structure Ticking (n : Nat) where
  k : Kernel n
  due : Fin n → Bool
  got : Fin n → Nat

inductive TickAct (n : Nat)
  | timer (c : Fin n)
  | preempt (c : Fin n)
  | act (a : Act n)

/-- The handler decides to yield, or returns. -/
def onTimer (x : Ticking n) (c : Fin n) : Ticking n :=
  { k := (Smp.timerSlice x.k c).1
    due := update x.due c (Smp.timerSlice x.k c).2
    got := update x.got c (x.got c + 1) }

/-- A section of the kernel that may change who runs where. -/
def onStep (x : Ticking n) (k : Kernel n) : Ticking n :=
  { k := k
    due := fun c => if (k.cpus c).proc = (x.k.cpus c).proc then x.due c else false
    got := fun c => if (k.cpus c).proc = (x.k.cpus c).proc then x.got c else 0 }

/-- One step: interrupts are off in the handler, so a CPU takes none while a yield is due, and `yield` is
called from the handler only. -/
def tickStep [NeZero n] (x : Ticking n) : TickAct n → Option (Ticking n)
  | .timer c => if x.due c then none else some (onTimer x c)
  | .preempt c => if x.due c then (step x.k (.yield c)).map (onStep x) else none
  | .act (.yield _) | .act (.slice _) => none
  | .act a => (step x.k a).map (onStep x)

def tickInit (types : Fin n → CoreType) : Ticking n := ⟨bootKernel types, fun _ => false, fun _ => 0⟩

/-- The ticks of the process running on an E-core. -/
def Counted (x : Ticking n) : Prop :=
  ∀ c p, (x.k.cpus c).coreType = .coreE → (x.k.cpus c).proc = some p →
    if x.due c then x.got c = 3 else (x.k.proc p).sliceTicks = x.got c ∧ x.got c < 3

variable {x : Ticking n}

theorem counted_timer (h : Inv b x.k q) (hx : Counted x) (hd : x.due c = false) : Counted (onTimer x c) := by
  obtain ⟨-, hcpu, hother, hself⟩ := timerSlice_spec h c
  intro d p ht hp
  simp only [onTimer, hcpu] at ht hp ⊢
  have hxd := hx d p ht hp
  by_cases e : d = c
  · subst e
    simp only [update_self]
    rw [hd] at hxd
    obtain ⟨hsl, hlt⟩ := hxd
    have hp' := hself p hp ht
    rw [hsl] at hp'
    split at hp'
    · rename_i hge
      rw [hp']
      have : (x.got d : Int) + 1 ≥ 3 := hge
      show x.got d + 1 = 3
      omega
    · rename_i hge
      rw [hp'.1]
      have : ¬ (x.got d : Int) + 1 ≥ 3 := hge
      refine ⟨by rw [hp'.2]; omega, by omega⟩
  · simp only [update_of_ne e]
    have hne : (x.k.cpus c).proc ≠ some p := fun hc => e (h.runOne d c p hp hc)
    rw [hother p hne]
    exact hxd

variable [NeZero n]

theorem counted_step {k : Kernel n} (h : Inv b x.k q) (hx : Counted x) {a : Act n}
    (hok : b = true → KillsNoSleeper x.k a) (hs : step x.k a = some k) (ha : ∀ c, a ≠ .slice c) :
    Counted (onStep x k) := by
  obtain ⟨q', hI, -, hm, htypes⟩ := step_spec h hok hs
  intro c p ht hp
  have hrun : (k.proc p).state = .running := (hI.running p).2 ⟨c, hp⟩
  have hslice := fire_slice (step_life h hs) (fun r hr => (event_slice hr).elim ha) hrun
  simp only [onStep] at ht hp ⊢
  rw [htypes] at ht
  by_cases e : (k.cpus c).proc = (x.k.cpus c).proc
  · simp only [if_pos e]
    rw [hp] at e
    have hxc := hx c p ht e.symm
    have hsame : (k.proc p).sliceTicks = (x.k.proc p).sliceTicks := hslice.1 ((h.running p).2 ⟨c, e.symm⟩)
    rw [hsame]
    exact hxc
  · simp only [if_neg e]
    have hstate : (x.k.proc p).state ≠ .running := by
      rcases hm.current h hp with hc | hr
      · exact absurd (hp.trans hc.symm) e
      · rw [hr]; decide
    have hzero : (k.proc p).sliceTicks = 0 := hslice.2 hstate
    exact ⟨hzero, by decide⟩

theorem counted_reach {types : Fin n → CoreType} (hr : Reachable (· = tickInit types) tickStep x) :
    (∃ q, Inv false x.k q) ∧ Counted x := by
  refine Reach.inv (P := fun x => (∃ q, Inv false x.k q) ∧ Counted x) ?_ ?_ hr
  · rintro x rfl
    refine ⟨⟨_, inv_boot false types⟩, fun c p _ hp => ?_⟩
    cases hp
  · rintro x a x' ⟨⟨q, hI⟩, hx⟩ - hs
    have hstep : ∀ {a k}, (∀ c, a ≠ .slice c) → step x.k a = some k → (∃ q, Inv false k q) ∧ Counted (onStep x k) := by
      intro a k ha hk
      obtain ⟨q', hI', -⟩ := step_spec hI (fun hb => by cases hb) hk
      exact ⟨⟨q', hI'⟩, counted_step hI hx (fun hb => by cases hb) hk ha⟩
    cases a with
    | timer c =>
      simp only [tickStep] at hs
      split at hs
      · cases hs
      · rename_i hd
        cases hs
        exact ⟨⟨q, (timerSlice_spec hI c).1⟩, counted_timer hI hx (Bool.eq_false_of_not_eq_true hd)⟩
    | preempt c =>
      simp only [tickStep] at hs
      split at hs
      · obtain ⟨k, hk, rfl⟩ := Option.map_eq_some_iff.1 hs
        exact hstep (fun _ e => by cases e) hk
      · cases hs
    | act a =>
      cases a with
      | yield c | slice c => cases hs
      | _ =>
        simp only [tickStep] at hs
        obtain ⟨k, hk, rfl⟩ := Option.map_eq_some_iff.1 hs
        exact hstep (fun _ e => by cases e) hk

/-! ## Round robin -/

def StaysQueued (c : Fin n) (p : Slot) (s : Kernel n) (a : Act n) : Prop := ∀ s', step s a = some s' → OnQueue s' c p

/-- Round robin on an E-core. From any state of a run in which `p` is queued there behind `pre`, and as
long as it stays queued, those before it are what is left of `pre`; a dispatch that does not move `p`
away takes one of them or `p`, and `p` only when none of them is left. The process running there gets
at most `RR_QUANTUM_TICKS` ticks; after the last of them it has to yield, and goes to the tail. -/
theorem ecore_round_robin (types : Fin n → CoreType) :
    (∀ s, Reachable (· = bootKernel types) step s → ∀ c, (s.cpus c).coreType = .coreE → ∀ pre p post,
      Chain s.next (s.cpus c).runq (pre ++ p :: post) → ∀ t, Reach (· = s) step (StaysQueued c p) t →
      ∃ pre' post', Chain t.next (t.cpus c).runq (pre' ++ p :: post') ∧ pre'.Sublist pre ∧
        ∀ t' r, step t (.scheduler c) = some t' → (t'.cpus c).proc = some r → OnQueue t' c p ∨ r = p →
          (r ∈ pre' ∨ r = p) ∧ (r = p → ∀ x ∈ pre', ¬ OnQueue t' c x)) ∧
    (∀ x, Reachable (· = tickInit types) tickStep x → ∀ c p, (x.k.cpus c).coreType = .coreE →
      (x.k.cpus c).proc = some p → (x.got c : Int) ≤ Smp.RR_QUANTUM_TICKS ∧
      (x.got c = Smp.RR_QUANTUM_TICKS → x.due c = true) ∧ ∀ x', tickStep x (.preempt c) = some x' →
        (x'.k.cpus c).proc = none ∧ ∃ l, Chain x'.k.next (x'.k.cpus c).runq (l ++ [p])) := by
  constructor
  · intro s hs c hc pre p post hq t ht
    have hinv : ∃ q pre' post', Inv false t q ∧ (t.cpus c).coreType = .coreE ∧ q c = pre' ++ p :: post' ∧
        pre'.Sublist pre := by
      refine Reach.inv (P := fun t => ∃ q pre' post', Inv false t q ∧ (t.cpus c).coreType = .coreE ∧
        q c = pre' ++ p :: post' ∧ pre'.Sublist pre) ?_ ?_ ht
      · rintro t rfl
        obtain ⟨q, hI⟩ := inv_reach (b := false) (fun hb => by cases hb) hs
        exact ⟨q, pre, post, hI, hc, (hI.queues.chain c).unique hq, .refl _⟩
      · rintro t a t' ⟨q, pre1, post1, hI, htc, hq1, hsub⟩ hok hs
        obtain ⟨q', hI', -, hm, htypes⟩ := step_spec hI (fun hb => by cases hb) hs
        obtain ⟨pre2, post2, hq2, hsub2⟩ := hm.ecore hI htc hq1 ((onQueue_iff hI'.queues).1 (hok t' hs))
        exact ⟨q', pre2, post2, hI', (htypes c).trans htc, hq2, hsub2.trans hsub⟩
    obtain ⟨q, pre', post', hI, htc, hqt, hsub⟩ := hinv
    refine ⟨pre', post', by rw [← hqt]; exact hI.queues.chain c, hsub, fun t' r hs' hr hp => ?_⟩
    obtain ⟨q', hI', -, hm, -⟩ := step_spec hI (fun hb => by cases hb) hs'
    have hidle : (t.cpus c).proc = none := by
      simp only [step] at hs'
      split at hs'
      · assumption
      · cases hs'
    rw [onQueue_iff hI'.queues] at hp
    obtain ⟨h1, h2⟩ := dispatch_order hI hm htc hidle hr hqt hp
    exact ⟨h1, fun e x hx ho => h2 e x hx ((onQueue_iff hI'.queues).1 ho)⟩
  · intro x hr c p ht hp
    obtain ⟨⟨q, hI⟩, hx⟩ := counted_reach hr
    have hc := hx c p ht hp
    have h3 : Smp.RR_QUANTUM_TICKS = 3 := rfl
    refine ⟨?_, fun hgot => ?_, fun x' hs => ?_⟩
    · rw [h3]
      split at hc <;> omega
    · by_contra hd
      rw [if_neg hd] at hc
      rw [h3] at hgot
      omega
    · simp only [tickStep] at hs
      split at hs
      · obtain ⟨k, hk, rfl⟩ := Option.map_eq_some_iff.1 hs
        obtain ⟨s1, e, hI1, -⟩ := hI.yield hp (A := fun _ => False) (X := fun _ => False) (E := fun _ _ => False)
        rw [step, e] at hk
        rw [← Option.some.inj hk]
        refine ⟨by rw [onStep, (idle_cpu s1 c c).1, if_pos rfl], q c, ?_⟩
        have := hI1.queues.chain c
        rwa [update_self] at this
      · cases hs

/-- One CPU: init forks twice and yields, and a child is dispatched before it; or it gets three ticks and has to
yield. -/
theorem ecore_round_robin_children :
    (∃ s t t' : Kernel 1, Reachable (· = bootKernel mpmainTypes) step s ∧ Chain s.next (s.cpus 0).runq [1, 2] ∧
      step s (.yield 0) = some t ∧ Chain t.next (t.cpus 0).runq [1, 2, 0] ∧ step t (.scheduler 0) = some t' ∧
      ∃ r, (t'.cpus 0).proc = some r ∧ (r = 1 ∨ r = 2)) ∧
    ∃ x : Ticking 1, Reachable (· = tickInit mpmainTypes) tickStep x ∧ (x.k.cpus 0).proc = some 0 ∧ x.got 0 = 3 ∧
      x.due 0 = true := by
  constructor
  · have hrun : (runActs step (bootKernel mpmainTypes) [.userinitAlloc, .userinitRun, .scheduler 0, .forkAlloc 0,
        .forkCopy 0, .forkRun 0, .forkAlloc 0, .forkCopy 0, .forkRun 0]).any (fun s : Kernel 1 =>
          ((s.cpus 0).coreType = .coreE ∧ (s.cpus 0).runq = some 1 ∧ s.next 1 = some 2 ∧ s.next 2 = none) &&
          (step s (.yield 0)).any fun t =>
            ((t.cpus 0).runq = some 1 ∧ t.next 1 = some 2 ∧ t.next 2 = some 0 ∧ t.next 0 = none) &&
            (step t (.scheduler 0)).any fun t' =>
              (t'.cpus 0).proc.isSome ∧ (t'.cpus 0).runq = some 2 ∧ t'.next 2 = some 0 ∧ t'.next 0 = none) = true := by
      decide +kernel
    obtain ⟨s, hr, hs⟩ := exists_reachable_of_run (· = bootKernel mpmainTypes) rfl _ _ hrun
    simp only [Bool.and_eq_true, decide_eq_true_eq, Option.any_eq_true] at hs
    obtain ⟨⟨hE, hq, h1, h2⟩, t, ht, ⟨tq, t1, t2, t0⟩, t', ht', hsome, tq', t2', t0'⟩ := hs
    obtain ⟨r, hp⟩ := Option.isSome_iff_exists.1 hsome
    have hs : Chain s.next (s.cpus 0).runq [1, 2] := ⟨hq, h1, h2⟩
    have hqt : Chain t.next (t.cpus 0).runq [1, 2, 0] := ⟨tq, t1, t2, t0⟩
    have hstays : StaysQueued 0 2 s (.yield 0) := fun x hx => by
      rw [ht] at hx; cases hx; exact ⟨_, hqt, by simp⟩
    obtain ⟨pre', post', -, hsub, hnext⟩ :=
      (ecore_round_robin mpmainTypes).1 s hr 0 hE [1] 2 [] hs t (.step (.init rfl) hstays ht)
    have hfirst := (hnext t' r ht' hp (.inl ⟨[2, 0], ⟨tq', t2', t0'⟩, by simp⟩)).1
    exact ⟨s, t, t', hr, hs, ht, hqt, ht', r, hp, hfirst.imp_left fun h => List.mem_singleton.1 (hsub.subset h)⟩
  · have hrun : (runActs tickStep (tickInit mpmainTypes)
        [.act .userinitAlloc, .act .userinitRun, .act (.scheduler 0), .timer 0, .timer 0, .timer 0]).any
        (fun x : Ticking 1 => (x.k.cpus 0).coreType = .coreE ∧ (x.k.cpus 0).proc = some 0 ∧ x.got 0 = 3) = true := by
      decide +kernel
    obtain ⟨x, hr, hs⟩ := exists_reachable_of_run (· = tickInit mpmainTypes) rfl _ _ hrun
    obtain ⟨ht, hp, hgot⟩ := of_decide_eq_true hs
    obtain ⟨-, hdue, -⟩ := (ecore_round_robin mpmainTypes).2 x hr 0 0 ht hp
    exact ⟨x, hr, hp, hgot, hdue (by rw [hgot]; rfl)⟩

end Xv6.Sched
