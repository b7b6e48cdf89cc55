/-
The scheduling invariant. `Inv b s q` says that the queues of `s` are the lists `q`, that every
queued process is `RUNNABLE`, that a process is `RUNNING` exactly when it is the current process of
one CPU, and that a slot under construction by `fork` or `userinit` is an `EMBRYO` built by one
process only; with `b = true` also that every `RUNNABLE` process is queued. Each function of
`proc.c` returns from a state with the invariant and keeps it; only `kill` needs `b = false`.
`Frame` bounds what a function does to the other processes: whom it makes run again, who is gone,
and who sleeps where.
-/
import Xv6.Sched.Queue

namespace Xv6.Sched

open Base Function

variable {n : Nat} {s'' : Kernel n}

/-- The slot a `fork` in progress is building. -/
def ForkPc.np : ForkPc → Option Slot
  | .out => none
  | .allocated k => some k
  | .copied k => some k

/-- The slot is under construction. -/
def Building (s : Kernel n) (k : Slot) : Prop := s.boot = some k ∨ ∃ p, (s.fork p).np = some k

structure Inv (b : Bool) (s : Kernel n) (q : Fin n → List Slot) : Prop where
  queues : QInv s q
  listed : ∀ p, Listed q p → (s.proc p).state = .runnable
  running : ∀ p, (s.proc p).state = .running ↔ ∃ c, (s.cpus c).proc = some p
  runOne : ∀ c d p, (s.cpus c).proc = some p → (s.cpus d).proc = some p → c = d
  embryo : ∀ k, Building s k → (s.proc k).state = .embryo
  buildOne : ∀ p r k, (s.fork p).np = some k → (s.fork r).np = some k → p = r
  buildBoot : ∀ p k, (s.fork p).np = some k → s.boot ≠ some k
  complete : b = true → ∀ p, (s.proc p).state = .runnable → Listed q p

variable {b : Bool} {s s' : Kernel n} {q q' : Fin n → List Slot} {p : Slot} {c : Fin n}

theorem Inv.weaken (h : Inv b s q) : Inv false s q := { h with complete := nofun }

theorem Inv.strengthen (h : Inv false s q) (hc : b = true → ∀ p, (s.proc p).state = .runnable → Listed q p) :
    Inv b s q := { h with complete := hc }

theorem Inv.congr (h : Inv b s q) (hp : s'.proc = s.proc) (hc : s'.cpus = s.cpus) (hf : s'.fork = s.fork)
    (hb : s'.boot = s.boot) : Inv b s' q := by
  have hn : s'.next = s.next := by funext r; simp only [Kernel.next, hp]
  refine ⟨h.queues.congr hn fun c => by simp only [hc, and_self], ?_, ?_, ?_, ?_, ?_, ?_, ?_⟩
  all_goals simp only [Building, hp, hc, hf, hb]
  exacts [h.listed, h.running, h.runOne, h.embryo, h.buildOne, h.buildBoot, h.complete]

theorem Inv.not_listed (h : Inv b s q) (hs : (s.proc p).state ≠ .runnable) :
    ¬ Listed q p := fun hl => hs (h.listed p hl)

theorem Inv.not_building (h : Inv b s q) (hs : (s.proc p).state ≠ .embryo) :
    ¬ Building s p := fun hb => hs (h.embryo p hb)

theorem Wakes.state_eq (w : Wakes s s' fun _ => False) (p : Slot) : (s'.proc p).state = (s.proc p).state :=
  w.kept p fun h => h.2

variable {W : Slot → Prop} {f : Proc → Proc}

theorem Wakes.sleeping (w : Wakes s s' W) {r : Slot} (h : (s'.proc r).state = .sleeping) :
    (s.proc r).state = .sleeping := by
  by_cases hr : (s.proc r).state = .sleeping ∧ W r
  · exact hr.1
  · rw [w.kept r hr] at h; exact h

theorem Wakes.building (w : Wakes s s' W) (k : Slot) : Building s' k ↔ Building s k := by
  rw [w.rest]; exact Iff.rfl

theorem Wakes.pushes {U W' : Slot → Prop} (w : Wakes s s' W) (h : Pushes s' q q' U) (hU : ∀ r, U r → W' r) :
    Pushes s q q' W' := (h.mono hU).congr fun c => (w.cpu c).2

/-! ## What a step may do to a process -/

/-- The process runs or is queued to run. -/
def Active (s : Kernel n) (q : Fin n → List Slot) (p : Slot) : Prop := Listed q p ∨ (s.proc p).state = .running

/-- The slot holds a process that has started and not exited. -/
def Alive (s : Kernel n) (p : Slot) : Prop :=
  (s.proc p).state = .sleeping ∨ (s.proc p).state = .runnable ∨ (s.proc p).state = .running

/-- Between two states only processes of `A` become active, only those of `X` cease to be alive, and
a process gets a channel or falls asleep only as `E` says. -/
structure Frame (s : Kernel n) (q : Fin n → List Slot) (s' : Kernel n) (q' : Fin n → List Slot) (A X : Slot → Prop)
    (E : Slot → Option Chan → Prop) : Prop where
  active : ∀ r, Active s' q' r → Active s q r ∨ A r
  alive : ∀ r, Alive s r → Alive s' r ∨ X r
  chan : ∀ r, (s'.proc r).chan = (s.proc r).chan ∨ (s'.proc r).chan = none ∨ E r (s'.proc r).chan
  sleeping : ∀ r, (s'.proc r).state = .sleeping →
    ((s.proc r).state = .sleeping ∧ (s'.proc r).chan = (s.proc r).chan) ∨ E r (s'.proc r).chan

variable {A X : Slot → Prop} {E : Slot → Option Chan → Prop}

theorem Frame.single (p : Slot) (hs : ∀ r ≠ p, (s'.proc r).state = (s.proc r).state)
    (hch : ∀ r ≠ p, (s'.proc r).chan = (s.proc r).chan) (hl : ∀ r ≠ p, Listed q' r → Listed q r)
    (h1 : Active s' q' p → Active s q p ∨ A p) (h2 : Alive s p → Alive s' p ∨ X p)
    (h3 : (s'.proc p).chan = (s.proc p).chan ∨ (s'.proc p).chan = none ∨ E p (s'.proc p).chan)
    (h4 : (s'.proc p).state = .sleeping →
      ((s.proc p).state = .sleeping ∧ (s'.proc p).chan = (s.proc p).chan) ∨ E p (s'.proc p).chan) :
    Frame s q s' q' A X E := by
  refine ⟨fun r => ?_, fun r => ?_, fun r => ?_, fun r => ?_⟩
  · by_cases e : r = p
    · subst e; exact h1
    · rintro (h | h)
      · exact .inl (.inl (hl r e h))
      · rw [hs r e] at h; exact .inl (.inr h)
  · by_cases e : r = p
    · subst e; exact h2
    · intro h
      refine .inl ?_
      unfold Alive at *
      rw [hs r e]; exact h
  · by_cases e : r = p
    · subst e; exact h3
    · exact .inl (hch r e)
  · by_cases e : r = p
    · subst e; exact h4
    · intro h; exact .inl ⟨(hs r e).symm.trans h, hch r e⟩

/-- A step that wakes sleepers and moves processes between queues. -/
theorem Wakes.frame (w : Wakes s s' W) (hl : ∀ r, Listed q' r → Active s q r ∨ A r) : Frame s q s' q' A X E := by
  have hst : ∀ r, (s'.proc r).state = (s.proc r).state ∨
      ((s.proc r).state = .sleeping ∧ (s'.proc r).state = .runnable) := fun r => by
    by_cases hr : (s.proc r).state = .sleeping ∧ W r
    · exact .inr ⟨hr.1, w.woken r hr.1 hr.2⟩
    · exact .inl (w.kept r hr)
  refine ⟨fun r => ?_, fun r h => ?_, fun r => .inl (w.agree r).chan, fun r h => ?_⟩
  · rintro (h | h)
    · exact hl r h
    · rcases hst r with e | ⟨-, e⟩
      · exact .inl (.inr (e.symm.trans h))
      · rw [e] at h; cases h
  · rcases hst r with e | ⟨-, e⟩
    · left; unfold Alive; rw [e]; exact h
    · exact .inl (.inr (.inl e))
  · rcases hst r with e | ⟨-, e⟩
    · exact .inl ⟨e.symm.trans h, (w.agree r).chan⟩
    · rw [e] at h; cases h

theorem Frame.refl (s : Kernel n) (q : Fin n → List Slot) : Frame s q s q A X E :=
  (Wakes.refl s).frame fun _ h => .inl (.inl h)

theorem Frame.congr (h : Frame s q s' q' A X E) (hp : s''.proc = s'.proc) : Frame s q s'' q' A X E := by
  refine ⟨?_, ?_, ?_, ?_⟩
  all_goals simp only [Active, Alive, hp]
  exacts [h.active, h.alive, h.chan, h.sleeping]

/-- Two steps, the first of which puts nobody to sleep. -/
theorem Frame.trans {q'' : Fin n → List Slot} (h1 : Frame s q s' q' A X fun _ _ => False)
    (h2 : Frame s' q' s'' q'' A X E) : Frame s q s'' q'' A X E := by
  refine ⟨fun r h => ?_, fun r h => ?_, fun r => ?_, fun r h => ?_⟩
  · rcases h2.active r h with h | h
    · exact h1.active r h
    · exact .inr h
  · rcases h1.alive r h with h | h
    · exact h2.alive r h
    · exact .inr h
  · rcases h2.chan r with e | e | e
    · rw [e]
      rcases h1.chan r with e' | e' | e'
      · exact .inl e'
      · exact .inr (.inl e')
      · exact e'.elim
    · exact .inr (.inl e)
    · exact .inr (.inr e)
  · rcases h2.sleeping r h with ⟨h, e⟩ | h
    · rcases h1.sleeping r h with ⟨h, e'⟩ | h
      · exact .inl ⟨h, e.trans e'⟩
      · exact h.elim
    · exact .inr h

theorem Frame.modProc (h1 : (f (s.proc p)).state = .running → Active s q p ∨ A p)
    (h2 : Alive s p → Alive (s.modProc p f) p ∨ X p)
    (h3 : (f (s.proc p)).chan = (s.proc p).chan ∨ (f (s.proc p)).chan = none ∨ E p (f (s.proc p)).chan)
    (h4 : (f (s.proc p)).state = .sleeping →
      ((s.proc p).state = .sleeping ∧ (f (s.proc p)).chan = (s.proc p).chan) ∨ E p (f (s.proc p)).chan) :
    Frame s q (s.modProc p f) q A X E := by
  refine Frame.single p ?_ ?_ (fun _ _ h => h) ?_ h2 (by simpa using h3) (by simpa using h4)
  · intro r hr; simp [hr]
  · intro r hr; simp [hr]
  · rintro (h | h)
    · exact .inl (.inl h)
    · exact h1 (by simpa using h)

theorem Frame.modProc_data (hs : (f (s.proc p)).state = (s.proc p).state) (hc : (f (s.proc p)).chan = (s.proc p).chan) :
    Frame s q (s.modProc p f) q A X E := by
  refine .modProc (fun h => .inl (.inr (hs.symm.trans h))) (fun h => .inl ?_) (.inl hc) fun h =>
    .inl ⟨hs.symm.trans h, hc⟩
  simpa [Alive, hs] using h

theorem Frame.modProc_dead (ha : ¬ Alive s p) (h1 : (f (s.proc p)).state ≠ .running)
    (h2 : (f (s.proc p)).state ≠ .sleeping) (hc : (f (s.proc p)).chan = (s.proc p).chan) :
    Frame s q (s.modProc p f) q A X E :=
  .modProc (fun h => absurd h h1) (fun h => absurd h ha) (.inl hc) fun h => absurd h h2

/-! ## Changes of one process -/

section

variable (h : Inv b s q) (hn : (f (s.proc p)).nextRun = (s.proc p).nextRun)

include h hn

/-- A change of one process that keeps its link and whether it runs, and suits the queue it is on
and the builder it has. -/
theorem Inv.modProc (hr : (f (s.proc p)).state = .running ↔ (s.proc p).state = .running)
    (hl : Listed q p → (f (s.proc p)).state = .runnable) (hb : Building s p → (f (s.proc p)).state = .embryo)
    (hc : b = true → (f (s.proc p)).state = .runnable → Listed q p) : Inv b (s.modProc p f) q := by
  refine ⟨h.queues.congr (s.modProc_next p hn) fun c => ⟨rfl, rfl⟩, fun r hlr => ?_, fun r => ?_, h.runOne,
    fun k hk => ?_, h.buildOne, h.buildBoot, fun hbt r hrr => ?_⟩
  all_goals simp only [Kernel.modProc_proc, Kernel.modProc_cpus] at *
  · by_cases e : r = p
    · subst e; rw [update_self]; exact hl hlr
    · rw [update_of_ne e]; exact h.listed r hlr
  · by_cases e : r = p
    · subst e; rw [update_self, hr]; exact h.running r
    · rw [update_of_ne e]; exact h.running r
  · by_cases e : k = p
    · subst e; rw [update_self]; exact hb hk
    · rw [update_of_ne e]; exact h.embryo k hk
  · by_cases e : r = p
    · subst e; rw [update_self] at hrr; exact hc hbt hrr
    · rw [update_of_ne e] at hrr; exact h.complete hbt r hrr

theorem Inv.modProc_data (hs : (f (s.proc p)).state = (s.proc p).state) : Inv b (s.modProc p f) q :=
  h.modProc hn (by rw [hs]) (fun hl => by rw [hs]; exact h.listed p hl) (fun hb => by rw [hs]; exact h.embryo p hb)
    fun hb hr => h.complete hb p (by rw [← hs]; exact hr)

theorem Inv.modProc_idle (h1 : (s.proc p).state ≠ .running) (h2 : (s.proc p).state ≠ .runnable) (h3 : ¬ Building s p)
    (h4 : (f (s.proc p)).state ≠ .running) (h5 : b = true → (f (s.proc p)).state ≠ .runnable) :
    Inv b (s.modProc p f) q :=
  h.modProc hn ⟨fun h => absurd h h4, fun h => absurd h h1⟩ (fun hl => absurd hl (h.not_listed h2))
    (fun hb => absurd hb h3) fun hb hr => absurd hr (h5 hb)

end

/-! ## Queue changes -/

theorem Inv.of_wakes (h : Inv b s q) (hq : QInv s' q') (w : Wakes s s' fun _ => False)
    (hl : ∀ r, Listed q' r → (s.proc r).state = .runnable)
    (hc : b = true → ∀ r, (s.proc r).state = .runnable → Listed q' r) : Inv b s' q' := by
  have hrest := w.rest
  refine ⟨hq, fun r hr => ?_, fun r => ?_, fun c d r => ?_, fun k hk => ?_, ?_, ?_, fun hb r hr => ?_⟩
  · rw [w.state_eq]; exact hl r hr
  · rw [w.state_eq, h.running]; simp only [(w.cpu _).1]
  · rw [(w.cpu c).1, (w.cpu d).1]; exact h.runOne c d r
  · rw [w.state_eq]; exact h.embryo k ((w.building k).1 hk)
  · rw [hrest]; exact h.buildOne
  · rw [hrest]; exact h.buildBoot
  · rw [w.state_eq] at hr; exact hc hb r hr

theorem Inv.enqueue (h : Inv false s q) (hs : (s.proc p).state = .runnable) (hp : ¬ Listed q p) (c : Fin n) :
    ∃ s', enqueue s c p = some s' ∧ Inv false s' (update q c (q c ++ [p])) := by
  obtain ⟨s', e, hq⟩ := enqueue_spec h.queues c fun d hd => hp ⟨d, hd⟩
  refine ⟨s', e, h.of_wakes hq (enqueue_wakes e).1 (fun r hr => ?_) nofun⟩
  rcases listed_append.1 hr with hr | rfl
  · exact h.listed r hr
  · exact hs

theorem Inv.loadBalance (h : Inv b s q) (c : Fin n) :
    ∃ s' q', loadBalance s c = some s' ∧ Inv b s' q' ∧ Frame s q s' q' A X E ∧ Balanced s c q q' := by
  obtain ⟨s', q', e, hq, hbal⟩ := loadBalance_spec h.queues c
  obtain ⟨w, -⟩ := loadBalance_wakes e
  have hl := hbal.listed h.queues
  exact ⟨s', q', e, h.of_wakes hq w (fun r hr => h.listed r ((hl r).1 hr)) fun hb r hr => (hl r).2 (h.complete hb r hr),
    w.frame fun r hr => .inl (.inl ((hl r).1 hr)), hbal⟩

section

variable [NeZero n]

theorem makeRunnable_wakes (e : makeRunnable s p = some s') :
    Wakes (s.setState p .runnable) s' (fun _ => False) ∧ SameParents s s' := by
  obtain ⟨w, hpar⟩ := enqueue_wakes e
  exact ⟨w, fun r => (hpar r).trans (s.modProc_apply p r Proc.parent rfl)⟩

variable {ch : Option Chan}

theorem wakeOne_wakes (e : wakeOne ch s p = some s') :
    Wakes s s' (fun r => r = p ∧ (s.proc r).chan = ch) ∧ SameParents s s' := by
  unfold wakeOne at e
  split at e
  · rename_i hs
    obtain ⟨w, hpar⟩ := makeRunnable_wakes e
    refine ⟨⟨fun r => ?_, fun r _ hw => ?_, fun r hn => ?_, w.cpu, w.rest⟩, hpar⟩
    · refine Agree.trans ?_ (w.agree r)
      by_cases hr : r = p
      · subst hr; simp [Kernel.setState, Agree]
      · simp [Kernel.setState, hr, Agree]
    · obtain ⟨rfl, -⟩ := hw; rw [w.state_eq]; simp [Kernel.setState]
    · rw [w.state_eq]
      have hr : r ≠ p := by
        rintro rfl; exact hn ⟨hs.1, rfl, hs.2⟩
      simp [Kernel.setState, hr]
  · rename_i hs
    rw [← Option.some.inj e]
    refine ⟨⟨fun _ => rfl, fun r hr hw => ?_, fun _ _ => rfl, fun _ => ⟨rfl, rfl⟩, rfl⟩, fun _ => rfl⟩
    obtain ⟨rfl, hw⟩ := hw
    exact absurd ⟨hr, hw⟩ hs

theorem wakeLoop_wakes : ∀ (l : List Slot) {s : Kernel n}, l.foldlM (wakeOne ch) s = some s' →
    Wakes s s' (fun r => r ∈ l ∧ (s.proc r).chan = ch) ∧ SameParents s s'
  | [], s, e => by
    rw [← Option.some.inj e]; exact ⟨(Wakes.refl s).congr (by simp), fun _ => rfl⟩
  | a :: l, s, e => by
    rw [List.foldlM_cons] at e
    obtain ⟨s1, e1, e2⟩ := Option.bind_eq_some_iff.1 e
    obtain ⟨w1, p1⟩ := wakeOne_wakes e1
    obtain ⟨w2, p2⟩ := wakeLoop_wakes l e2
    refine ⟨(w1.trans w2).congr fun r => ?_, fun r => (p2 r).trans (p1 r)⟩
    rw [(w1.agree r).chan, List.mem_cons]
    tauto

theorem wakeup1_wakes (e : wakeup1 ch s = some s') : Wakes s s' (fun r => (s.proc r).chan = ch) ∧ SameParents s s' := by
  obtain ⟨w, hpar⟩ := wakeLoop_wakes (List.finRange NPROC) e
  exact ⟨w.congr fun r => and_iff_right (List.mem_finRange r), hpar⟩

/-- The locked tail of `userinit` and `fork`, and one wakeup: a process that is not running, queued
or under construction becomes `RUNNABLE` and goes to a queue. -/
theorem Inv.makeRunnable (h : Inv b s q) (h1 : (s.proc p).state ≠ .running) (h2 : (s.proc p).state ≠ .runnable)
    (h3 : ¬ Building s p) : ∃ s' q', makeRunnable s p = some s' ∧ Inv b s' q' ∧ Pushes s q q' (· = p) := by
  have hi : Inv false (s.setState p .runnable) q := h.weaken.modProc_idle rfl h1 h2 h3 (by simp) nofun
  have hnl := h.not_listed h2
  have hcore : TakesWoken s (getLeastLoadedECore (s.setState p .runnable)) := hi.queues.takesWoken
  obtain ⟨s', e, hI⟩ := hi.enqueue (p := p) (by simp [Kernel.setState]) hnl
    (getLeastLoadedECore (s.setState p .runnable))
  refine ⟨s', _, e, hI.strengthen fun hb r hr => ?_, .append hnl hcore⟩
  rw [(enqueue_wakes e).1.state_eq] at hr
  rw [listed_append]
  by_cases e : r = p
  · exact .inr e
  · exact .inl (h.complete hb r (by simpa [Kernel.setState, e] using hr))

theorem Inv.wakeOne (h : Inv b s q) (ch : Option Chan) (p : Slot) :
    ∃ s' q', wakeOne ch s p = some s' ∧ Inv b s' q' ∧
      Pushes s q q' fun r => (s.proc r).state = .sleeping ∧ (s.proc r).chan = ch := by
  unfold Xv6.Sched.wakeOne
  split
  · rename_i hs
    obtain ⟨s', q', e, hI, hl⟩ := h.makeRunnable (p := p) (by simp [hs.1]) (by simp [hs.1])
      (h.not_building (by simp [hs.1]))
    refine ⟨s', q', e, hI, hl.mono ?_⟩
    rintro r rfl
    exact hs
  · exact ⟨s, q, rfl, h, .refl s q _⟩

theorem Inv.wakeLoop (ch : Option Chan) : ∀ (l : List Slot) {s : Kernel n} {q : Fin n → List Slot}, Inv b s q →
    ∃ s' q', l.foldlM (Sched.wakeOne ch) s = some s' ∧ Inv b s' q' ∧
      Pushes s q q' fun r => (s.proc r).state = .sleeping ∧ (s.proc r).chan = ch
  | [], s, q, h => ⟨s, q, rfl, h, .refl s q _⟩
  | a :: l, s, q, h => by
    obtain ⟨s1, q1, e1, h1, l1⟩ := h.wakeOne ch a
    obtain ⟨w1, -⟩ := wakeOne_wakes e1
    obtain ⟨s2, q2, e2, h2, l2⟩ := Inv.wakeLoop ch l h1
    refine ⟨s2, q2, ?_, h2, l1.trans (w1.pushes l2 ?_)⟩
    · rw [List.foldlM_cons, e1]; exact e2
    · rintro r ⟨hs, hc⟩; exact ⟨w1.sleeping hs, (w1.agree r).chan.symm.trans hc⟩

theorem Inv.wakeup1 (h : Inv b s q) (ch : Option Chan) :
    ∃ s' q', wakeup1 ch s = some s' ∧ Inv b s' q' ∧
      Pushes s q q' fun r => (s.proc r).state = .sleeping ∧ (s.proc r).chan = ch :=
  Inv.wakeLoop ch (List.finRange NPROC) h

end

/-! ## Giving up the CPU -/

/-- CPU `c` is back in its scheduler. -/
abbrev Kernel.idle (s : Kernel n) (c : Fin n) : Kernel n := s.modCpu c fun k => { k with proc := none }

theorem setCur_cpus (s : Kernel n) (c d : Fin n) (o : Option Slot) :
    (s.modCpu c fun k => { k with proc := o }).cpus d = { s.cpus d with proc := if d = c
      then o else (s.cpus d).proc } := by
  by_cases e : d = c
  · subst e; simp
  · simp [e]

theorem modProc_state {r : Slot} :
    ((s.modProc p f).proc r).state = if r = p then (f (s.proc p)).state else (s.proc r).state := by
  by_cases e : r = p
  · subst e; simp
  · simp [e]

/-- The current process of `c` changes to a state other than `RUNNING`, some queues change, and the
CPU goes back to its scheduler. -/
theorem Inv.leave (h : Inv b s q) (hp : (s.cpus c).proc = some p) (hf : (f (s.proc p)).state ≠ .running)
    (hq : QInv s' q') (w : Wakes (s.modProc p f) s' fun _ => False)
    (hl : ∀ r, Listed q' r → ((s.modProc p f).proc r).state = .runnable)
    (hc : b = true → ∀ r, ((s.modProc p f).proc r).state = .runnable → Listed q' r) : Inv b (s'.idle c) q' := by
  have hrun : (s.proc p).state = .running := (h.running p).2 ⟨c, hp⟩
  have hcpu : ∀ d, ((s'.idle c).cpus d).proc = if d = c then none else (s.cpus d).proc := fun d => by
    rw [setCur_cpus, (w.cpu d).1]; rfl
  have hst : ∀ r, (s'.proc r).state = if r = p then (f (s.proc p)).state else (s.proc r).state := fun r =>
    (w.state_eq r).trans modProc_state
  have hrest := w.rest
  refine ⟨hq.congr rfl fun d => ?_, fun r hr => ?_, fun r => ?_, fun d e r => ?_, fun k hk => ?_,
    ?_, ?_, fun hb r hr => ?_⟩
  · rw [setCur_cpus]; exact ⟨rfl, rfl⟩
  · rw [Kernel.modCpu_proc, w.state_eq]; exact hl r hr
  · rw [Kernel.modCpu_proc, hst]
    simp only [hcpu]
    by_cases e : r = p
    · subst e
      simp only [if_true, hf, false_iff, not_exists]
      intro d hd
      split at hd
      · cases hd
      · exact absurd (h.runOne d c r hd hp) ‹_›
    · rw [if_neg e, h.running]
      constructor
      · rintro ⟨d, hd⟩
        refine ⟨d, ?_⟩
        rw [if_neg]
        · exact hd
        · rintro rfl; rw [hp] at hd; exact e (Option.some.inj hd).symm
      · rintro ⟨d, hd⟩
        split at hd
        · cases hd
        · exact ⟨d, hd⟩
  · rw [hcpu, hcpu]
    intro h1 h2
    split at h1
    · cases h1
    · split at h2
      · cases h2
      · exact h.runOne d e r h1 h2
  · have hk' : Building s k := by rw [hrest] at hk; exact hk
    rw [Kernel.modCpu_proc, hst, if_neg]
    · exact h.embryo k hk'
    · rintro rfl
      have := h.embryo k hk'; rw [hrun] at this; cases this
  · rw [hrest]; exact h.buildOne
  · rw [hrest]; exact h.buildBoot
  · rw [Kernel.modCpu_proc, w.state_eq] at hr; exact hc hb r hr

theorem sched_eq (hp : (s.cpus c).proc = some p) (hs : (s.proc p).state ≠ .running) :
    sched s c = some (s.idle c) := by
  unfold sched
  simp [hp, hs]

theorem Inv.park (h : Inv b s q) (hp : (s.cpus c).proc = some p) (hn : (f (s.proc p)).nextRun = (s.proc p).nextRun)
    (h1 : (f (s.proc p)).state ≠ .running) (h2 : (f (s.proc p)).state ≠ .runnable) :
    sched (s.modProc p f) c = some ((s.modProc p f).idle c) ∧ Inv b ((s.modProc p f).idle c) q := by
  have hrun : (s.proc p).state = .running := (h.running p).2 ⟨c, hp⟩
  refine ⟨sched_eq (p := p) (by simpa using hp) (by simpa using h1), ?_⟩
  refine h.leave hp h1 ?_ (.refl (s.modProc p f)) (fun r hr => ?_) fun hb r hr => ?_
  · exact h.queues.congr (s.modProc_next p hn) fun d => ⟨rfl, rfl⟩
  · rw [modProc_state, if_neg]
    · exact h.listed r hr
    · rintro rfl; exact h.not_listed (by simp [hrun]) hr
  · rw [modProc_state] at hr
    split at hr
    · exact absurd hr h2
    · exact h.complete hb r hr

theorem Inv.yield (h : Inv b s q) (hp : (s.cpus c).proc = some p) :
    ∃ s1, yield s c = some (s1.idle c) ∧ Inv b (s1.idle c) (update q c (q c ++ [p])) ∧
      Frame s q (s1.idle c) (update q c (q c ++ [p])) A X E ∧
      Wakes (s.setState p .runnable) s1 (fun _ => False) ∧ SameParents (s.setState p .runnable) s1 := by
  have hrun : (s.proc p).state = .running := (h.running p).2 ⟨c, hp⟩
  have hnl : ¬ Listed q p := h.not_listed (by simp [hrun])
  have hq : QInv (s.setState p .runnable) q :=
    h.queues.congr (s.modProc_next p rfl) fun _ => ⟨rfl, rfl⟩
  obtain ⟨s1, e1, hq1⟩ := enqueue_spec hq c (p := p) fun d hd => hnl ⟨d, hd⟩
  obtain ⟨w1, hpar⟩ := enqueue_wakes e1
  have hp1 : (s1.cpus c).proc = some p := by rw [(w1.cpu c).1]; exact hp
  have hs1 : (s1.proc p).state = .runnable := by rw [w1.state_eq]; simp [Kernel.setState]
  refine ⟨s1, ?_, ?_, ?_, w1, hpar⟩
  · unfold Xv6.Sched.yield
    simp only [hp, Option.bind_eq_bind, Option.bind_some, e1]
    exact sched_eq hp1 (by simp [hs1])
  · refine h.leave hp (f := fun r => { r with state := .runnable }) (by simp) hq1 w1 (fun r hr => ?_) fun hb r hr => ?_
    · rw [modProc_state]
      split
      · rfl
      · rename_i e; exact h.listed r ((listed_append.1 hr).resolve_right e)
    · rw [listed_append]
      rw [modProc_state] at hr
      split at hr
      · exact .inr ‹_›
      · exact .inl (h.complete hb r hr)
  · have hst : ∀ r, (s1.proc r).state = if r = p then .runnable else (s.proc r).state := fun r => by
      rw [w1.state_eq]; exact modProc_state
    have hch : ∀ r, (s1.proc r).chan = (s.proc r).chan := fun r =>
      (w1.agree r).chan.trans (s.modProc_apply p r Proc.chan rfl)
    refine Frame.single p (fun r e => ?_) (fun r _ => hch r) (fun r e hr => (listed_append.1 hr).resolve_right e)
      (fun _ => .inl (.inr hrun)) (fun _ => .inl (.inr (.inl hs1))) (.inl (hch p)) fun hsl => ?_
    · exact (hst r).trans (if_neg e)
    · rw [Kernel.modCpu_proc, hs1] at hsl; cases hsl

/-! ## Dispatch -/

/-- The switch to a `RUNNABLE` process that has just been taken off its queue. -/
theorem Inv.dispatch (h : Inv false s q) (hc : (s.cpus c).proc = none) (hs : (s.proc p).state = .runnable)
    (hl : ¬ Listed q p) (hcomp : b = true → ∀ r, r ≠ p → (s.proc r).state = .runnable → Listed q r) :
    Inv b (dispatch s c p) q := by
  have hst : ∀ r, ((Sched.dispatch s c p).proc r).state = if r = p then .running else (s.proc r).state :=
    fun _ => modProc_state
  have hcpus : ∀ d, (Sched.dispatch s c p).cpus d = _ := fun d => setCur_cpus s c d (some p)
  refine ⟨h.queues.congr ?_ fun d => ?_, fun r hr => ?_, fun r => ?_, fun d e r => ?_, fun k hk => ?_, h.buildOne,
    h.buildBoot, fun hb r hr => ?_⟩
  · exact Kernel.modProc_next _ _ rfl
  · rw [hcpus]; exact ⟨rfl, rfl⟩
  · rw [hst, if_neg]
    · exact h.listed r hr
    · rintro rfl; exact hl hr
  · rw [hst]
    simp only [hcpus]
    by_cases e : r = p
    · subst e; simp only [if_true, true_iff]; exact ⟨c, by simp⟩
    · rw [if_neg e, h.running]
      constructor
      · rintro ⟨d, hd⟩
        refine ⟨d, ?_⟩
        rw [if_neg]
        · exact hd
        · rintro rfl; rw [hc] at hd; cases hd
      · rintro ⟨d, hd⟩
        split at hd
        · exact absurd (Option.some.inj hd).symm e
        · exact ⟨d, hd⟩
  · rw [hcpus, hcpus]
    -- a process already current elsewhere would be `RUNNING`
    have hnot : ∀ f, (s.cpus f).proc ≠ some p := fun f hf => by
      have := (h.running p).2 ⟨f, hf⟩; rw [hs] at this; cases this
    intro h1 h2
    split at h1 <;> split at h2
    · rename_i e1 e2; rw [e1, e2]
    · rw [← Option.some.inj h1] at h2; exact absurd h2 (hnot e)
    · rw [← Option.some.inj h2] at h1; exact absurd h1 (hnot d)
    · exact h.runOne d e r h1 h2
  · rw [hst, if_neg]
    · exact h.embryo k hk
    · rintro rfl
      have := h.embryo k hk; rw [hs] at this; cases this
  · rw [hst] at hr
    split at hr
    · cases hr
    · exact hcomp hb r ‹_› hr

/-- What the choice and the switch on CPU `c` do: nothing if its queue is empty, else the process selected
leaves the queue and runs. -/
def Picks (s : Kernel n) (c : Fin n) (q : Fin n → List Slot) (s' : Kernel n) (q' : Fin n → List Slot) : Prop :=
  (s' = s ∧ q' = q ∧ q c = []) ∨
  ∃ p s1, select s c = some (some p) ∧ p ∈ q c ∧ (s.proc p).state = .runnable ∧
    q' = update q c ((q c).erase p) ∧ Wakes s s1 (fun _ => False) ∧ SameParents s s1 ∧ s' = Sched.dispatch s1 c p

/-- The choice and the switch on an idle CPU: `dequeue` of the chosen process does not fail. -/
theorem Inv.schedulerPick (h : Inv b s q) (hc : (s.cpus c).proc = none) :
    ∃ s' q', schedulerPick s c = some s' ∧ Inv b s' q' ∧ Frame s q s' q' A X E ∧ Picks s c q s' q' := by
  obtain ⟨o, e, hsel, hnone⟩ := select_spec h.queues c
  unfold Sched.schedulerPick
  simp only [e, Option.bind_eq_bind, Option.bind_some]
  rcases o with _ | r
  · have hnil : q c = [] := List.eq_nil_iff_forall_not_mem.2 fun p hp => hnone rfl p hp (h.listed p ⟨c, hp⟩)
    exact ⟨s, q, rfl, h, .refl s q, .inl ⟨rfl, rfl, hnil⟩⟩
  · obtain ⟨hmem, hr⟩ := hsel r rfl
    obtain ⟨s1, e1, h1⟩ := dequeue_spec h.queues hmem
    obtain ⟨w, hpar⟩ := dequeue_wakes e1
    have herase := fun x => h.queues.listed_erase (r := x) hmem
    have hI : Inv false s1 (update q c ((q c).erase r)) :=
      h.weaken.of_wakes h1 w (fun x hx => h.listed x ((herase x).1 hx).1) nofun
    simp only [e1, Option.bind_some, ne_eq, not_true_eq_false, if_false]
    refine ⟨_, _, rfl, hI.dispatch (by rw [(w.cpu c).1]; exact hc) (by rw [w.state_eq]; exact hr)
      (fun hx => ((herase r).1 hx).2 rfl) fun hb x hx hxr => ?_, ?_, .inr ⟨r, s1, e, hmem, hr, rfl, w, hpar, rfl⟩⟩
    · rw [w.state_eq] at hxr; exact (herase x).2 ⟨h.complete hb x hxr, hx⟩
    · refine Frame.single r (fun x hx => ?_) (fun x hx => ?_) (fun x _ hl => ((herase x).1 hl).1)
        (fun _ => .inl (.inl ⟨c, hmem⟩)) (fun _ => ?_) ?_ ?_
      · simp [Sched.dispatch, hx, w.state_eq]
      · simp [Sched.dispatch, hx, (w.agree x).chan]
      · left; right; right; simp [Sched.dispatch]
      · right; left; simp [Sched.dispatch]
      · simp [Sched.dispatch]

theorem Inv.scheduler (h : Inv b s q) (hc : (s.cpus c).proc = none) :
    ∃ s0 q0 s' q', scheduler s c = some s' ∧ Inv b s' q' ∧ Frame s q s' q' A X E ∧
      Wakes s s0 (fun _ => False) ∧ SameParents s s0 ∧ Balanced s c q q0 ∧ Inv b s0 q0 ∧ Picks s0 c q0 s' q' := by
  unfold Sched.scheduler
  split
  · obtain ⟨s1, q1, e1, h1, f1, hbal⟩ := h.loadBalance (A := A) (X := X) (E := fun _ _ => False) c
    obtain ⟨w, hpar⟩ := loadBalance_wakes e1
    obtain ⟨s2, q2, e2, h2, f2, hpick⟩ := h1.schedulerPick (c := c) (A := A) (X := X) (E := E) ((w.cpu c).1.trans hc)
    simp only [e1, Option.bind_eq_bind, Option.bind_some]
    exact ⟨s1, q1, s2, q2, e2, h2, f1.trans f2, w, hpar, hbal, h1, hpick⟩
  · obtain ⟨s2, q2, e2, h2, f2, hpick⟩ := h.schedulerPick (A := A) (X := X) (E := E) hc
    exact ⟨s, q, s2, q2, e2, h2, f2, .refl s, fun _ => rfl, .inl rfl, h, hpick⟩

/-! ## Process creation -/

theorem allocproc_none (h : (allocproc s).1 = none) : (allocproc s).2 = s := by
  unfold allocproc at *
  split at h
  · rfl
  · cases h

theorem Inv.allocproc (h : Inv b s q) (hp : (allocproc s).1 = some p) :
    Inv b (allocproc s).2 q ∧ ((allocproc s).2.proc p).state = .embryo ∧ ¬ Building (allocproc s).2 p ∧
      Frame s q (allocproc s).2 q A X E := by
  unfold Sched.allocproc at *
  split at hp
  · cases hp
  · rename_i r hr
    cases hp
    have hu : (s.proc p).state = .unused := by simpa using List.find?_some hr
    have hnl : ¬ Listed q p := h.not_listed (by simp [hu])
    have hnb : ¬ Building s p := h.not_building (by simp [hu])
    -- the link is cleared, but the slot is on no queue
    have h1 : Inv b (s.setNext p none) q := by
      refine h.of_wakes ⟨fun c => ?_, h.queues.disj, h.queues.count⟩ ((Wakes.refl s).setNext p none) h.listed h.complete
      rw [Kernel.setNext_next]
      refine (h.queues.chain c).congr fun a ha => update_of_ne ?_ ..
      rintro rfl; exact hnl ⟨c, ha⟩
    have hu1 : ((s.setNext p none).proc p).state = .unused := by simp [Kernel.setNext, hu]
    have h2 := h1.modProc_idle (p := p) (f := fun r => { r with
      state := .embryo, pid := s.nextpid, ctime := s.ticks, sliceTicks := 0, etime := 0 }) rfl (by simp [hu1])
      (by simp [hu1]) hnb (by simp) (by simp)
    refine ⟨h2.congr ?_ rfl rfl rfl, by simp, hnb, ?_⟩
    · simp [Kernel.setNext, Kernel.modProc]
    · have hf : Frame s q (s.modProc p fun r => { r with
          state := .embryo, pid := s.nextpid, ctime := s.ticks, sliceTicks := 0,
          nextRun := none, etime := 0 }) q A X E :=
        Frame.modProc_dead (by simp [Alive, hu]) (by simp) (by simp) rfl
      exact hf.congr rfl

/-- A process moves inside `fork`: what it builds from now on is an `EMBRYO` nobody else builds. -/
theorem Inv.setFork (h : Inv b s q) {pc : ForkPc}
    (hpc : ∀ k, pc.np = some k → (s.proc k).state = .embryo ∧ s.boot ≠ some k ∧ ∀ r ≠ p, (s.fork r).np ≠ some k) :
    Inv b (s.setFork p pc) q := by
  have hf : ∀ r, (s.setFork p pc).fork r = if r = p then pc else s.fork r := fun r => by
    simp [Kernel.setFork, update_apply]
  refine ⟨h.queues.congr rfl fun _ => ⟨rfl, rfl⟩, h.listed, h.running, h.runOne, fun k hk => ?_, fun r r' k => ?_,
    fun r k => ?_, h.complete⟩
  · rcases hk with hk | ⟨r, hk⟩
    · exact h.embryo k (.inl hk)
    · rw [hf] at hk
      split at hk
      · exact (hpc k hk).1
      · exact h.embryo k (.inr ⟨r, hk⟩)
  · rw [hf, hf]
    intro h1 h2
    split at h1 <;> split at h2
    · rename_i e1 e2; rw [e1, e2]
    · exact absurd h2 ((hpc k h1).2.2 r' ‹_›)
    · exact absurd h1 ((hpc k h2).2.2 r ‹_›)
    · exact h.buildOne r r' k h1 h2
  · rw [hf]
    intro h1
    split at h1
    · exact (hpc k h1).2.1
    · exact h.buildBoot r k h1

theorem Inv.setBoot (h : Inv b s q) {o : Option Slot}
    (ho : ∀ k, o = some k → (s.proc k).state = .embryo ∧ ∀ r, (s.fork r).np ≠ some k) :
    Inv b { s with boot := o } q := by
  refine ⟨h.queues.congr rfl fun _ => ⟨rfl, rfl⟩, h.listed, h.running, h.runOne, fun k hk => ?_,
    h.buildOne, fun r k hr e => ?_, h.complete⟩
  · rcases hk with hk | hk
    · exact (ho k hk).1
    · exact h.embryo k (.inr hk)
  · exact (ho k e).2 r hr

/-! ## Exit, wait and kill -/

theorem Wakes.initproc (w : Wakes s s' W) : s'.initproc = s.initproc := by rw [w.rest]

theorem Wakes.zombie (w : Wakes s s' W) (p : Slot) : (s'.proc p).state = .zombie ↔ (s.proc p).state = .zombie := by
  by_cases hw : (s.proc p).state = .sleeping ∧ W p
  · simp [w.woken p hw.1 hw.2, hw.1]
  · rw [w.kept p hw]

/-- The abandoned child `p` makes the exit of `cur` wake the sleepers on `initproc`. -/
def Orphaned (s : Kernel n) (cur p r : Slot) : Prop :=
  (s.proc p).parent = some cur ∧ (s.proc p).state = .zombie ∧ (s.proc r).chan = s.initproc.map .proc

/-- The processes `exit` of `cur` wakes if they sleep: those on the channel of its parent, and those
on the channel of `initproc` if `cur` leaves a zombie child behind. -/
def ExitWakes (s : Kernel n) (cur r : Slot) : Prop :=
  (s.proc r).chan = (s.proc cur).parent.map .proc ∨ ∃ p, Orphaned s cur p r

/-- The state in which `exit` starts its wakeups. -/
def exitStart (s : Kernel n) (p : Slot) : Kernel n :=
  let s := s.modProc p fun r => { r with etime := s.ticks }
  if s.metricsActive then { s with metricsProcCompleted := s.metricsProcCompleted + 1 } else s

theorem exitStart_proc (s : Kernel n) (p : Slot) :
    (exitStart s p).proc = (s.modProc p fun r => { r with etime := s.ticks }).proc := by
  unfold exitStart
  simp only
  split <;> rfl

theorem exitStart_rest (s : Kernel n) (p : Slot) : (exitStart s p).cpus = s.cpus ∧ (exitStart s p).fork = s.fork ∧
    (exitStart s p).boot = s.boot ∧ (exitStart s p).initproc = s.initproc := by
  unfold exitStart
  simp only
  split <;> exact ⟨rfl, rfl, rfl, rfl⟩

theorem exitStart_fields (s : Kernel n) (p r : Slot) : ((exitStart s p).proc r).state = (s.proc r).state ∧
    ((exitStart s p).proc r).parent = (s.proc r).parent ∧ ((exitStart s p).proc r).chan = (s.proc r).chan := by
  rw [exitStart_proc]
  by_cases e : r = p
  · subst e; simp
  · simp [e]

theorem orphaned_exitStart (w : Wakes (exitStart s p) s' W) (hpar : SameParents (exitStart s p) s') (x r : Slot) :
    Orphaned s' p x r ↔ Orphaned s p x r := by
  have hfld := exitStart_fields s p
  unfold Orphaned
  rw [hpar, (hfld x).2.1, w.zombie, (hfld x).1, (w.agree r).chan, (hfld r).2.2, w.initproc, (exitStart_rest s p).2.2.2]

section

variable [NeZero n] {cur : Slot}

theorem reparent_wakes (e : reparent cur s p = some s') : Wakes s s' (Orphaned s cur p) ∧
      ∀ r, (s'.proc r).parent = if r = p ∧ (s.proc r).parent = some cur then s.initproc else (s.proc r).parent := by
  unfold reparent at e
  split at e
  · rename_i hpar
    have w1 := wakes_modProc (s := s) (p := p) (f := fun r => { r with parent := s.initproc }) rfl rfl
    have hparent : ∀ r, ((s.modProc p fun r => { r with parent := s.initproc }).proc r).parent =
        if r = p ∧ (s.proc r).parent = some cur then s.initproc else (s.proc r).parent := by
      intro r
      by_cases e : r = p
      · subst e; simp [hpar]
      · simp [e]
    simp only at e
    split at e
    · rename_i hz
      rw [w1.zombie] at hz
      obtain ⟨w2, p2⟩ := wakeup1_wakes e
      refine ⟨(w1.trans w2).congr fun r => ?_, fun r => (p2 r).trans (hparent r)⟩
      rw [(w1.agree r).chan]
      exact ⟨fun hr => ⟨hpar, hz, hr.resolve_left id⟩, fun hr => .inr hr.2.2⟩
    · rename_i hz
      rw [w1.zombie] at hz
      rw [← Option.some.inj e]
      exact ⟨w1.congr fun r => ⟨False.elim, fun hr => hz hr.2.1⟩, hparent⟩
  · rename_i hpar
    rw [← Option.some.inj e]
    refine ⟨(Wakes.refl s).congr fun r => ⟨False.elim, fun hr => hpar hr.1⟩, fun r => ?_⟩
    rw [if_neg]
    rintro ⟨rfl, hr⟩
    exact hpar hr

/-- A later round of the loop of `exit` sees the same zombies; only the child of this round has another
parent. -/
theorem orphaned_later {a : Slot} (hi : s.initproc ≠ some cur) (e : reparent cur s a = some s') (p r : Slot) :
    Orphaned s' cur p r ↔ p ≠ a ∧ Orphaned s cur p r := by
  obtain ⟨w, hpar⟩ := reparent_wakes e
  unfold Orphaned
  rw [w.zombie, (w.agree r).chan, w.initproc, hpar p]
  by_cases hpa : p = a
  · subst hpa
    by_cases hc : (s.proc p).parent = some cur <;> simp [hc, hi]
  · simp [hpa]

theorem reparentLoop_wakes : ∀ (l : List Slot) {s : Kernel n}, s.initproc ≠ some cur →
    l.foldlM (reparent cur) s = some s' → Wakes s s' (fun r => ∃ p ∈ l, Orphaned s cur p r) ∧
      ∀ r, (s'.proc r).parent = if r ∈ l ∧ (s.proc r).parent = some cur then s.initproc else (s.proc r).parent
  | [], s, _, e => by
    rw [← Option.some.inj e]; exact ⟨(Wakes.refl s).congr (by simp), by simp⟩
  | a :: l, s, hi, e => by
    rw [List.foldlM_cons] at e
    obtain ⟨s1, e1, e2⟩ := Option.bind_eq_some_iff.1 e
    obtain ⟨w1, p1⟩ := reparent_wakes e1
    obtain ⟨w2, p2⟩ := reparentLoop_wakes l (by rw [w1.initproc]; exact hi) e2
    have hlater := orphaned_later hi e1
    refine ⟨(w1.trans w2).congr fun r => ⟨?_, ?_⟩, fun r => ?_⟩
    · rintro (hr | ⟨p, hp, hr⟩)
      · exact ⟨a, List.mem_cons_self .., hr⟩
      · exact ⟨p, .tail _ hp, ((hlater p r).1 hr).2⟩
    · rintro ⟨p, hp, hr⟩
      by_cases hpa : p = a
      · subst hpa; exact .inl hr
      · exact .inr ⟨p, (List.mem_cons.1 hp).resolve_left hpa, (hlater p r).2 ⟨hpa, hr⟩⟩
    · rw [p2, p1, w1.initproc]
      by_cases hra : r = a
      · by_cases hc : (s.proc r).parent = some cur
        · simp [hra, hra ▸ hc, hi]
        · simp [hc]
      · simp [hra]

/-- The wakeups of `exit` and the loop after them: the sleepers of `ExitWakes` are made `RUNNABLE` and
the children pass to init. -/
theorem abandon_wakes {s1 s2 : Kernel n} (hi : s.initproc ≠ some p)
    (e1 : wakeup1 (((exitStart s p).proc p).parent.map .proc) (exitStart s p) = some s1)
    (e2 : (List.finRange NPROC).foldlM (reparent p) s1 = some s2) :
    Wakes (exitStart s p) s2 (ExitWakes s p) ∧
      ∀ r, (s2.proc r).parent = if (s.proc r).parent = some p then s.initproc else (s.proc r).parent := by
  obtain ⟨-, -, -, hi0⟩ := exitStart_rest s p
  have hfld := exitStart_fields s p
  obtain ⟨w1, p1⟩ := wakeup1_wakes e1
  obtain ⟨w2, p2⟩ := reparentLoop_wakes _ (by rw [w1.initproc, hi0]; exact hi) e2
  have horph := fun x r => orphaned_exitStart (s := s) (p := p) w1 p1 x r
  refine ⟨(w1.trans w2).congr fun r => ?_, fun r => ?_⟩
  · rw [(hfld r).2.2, (hfld p).2.1]
    exact or_congr Iff.rfl
      ⟨fun ⟨x, _, hx⟩ => ⟨x, (horph x r).1 hx⟩, fun ⟨x, hx⟩ => ⟨x, List.mem_finRange x, (horph x r).2 hx⟩⟩
  · rw [p2, p1, (hfld r).2.1, w1.initproc, hi0]; simp only [List.mem_finRange, true_and]

/-- `exit` wakes the sleepers of `ExitWakes`, passes the children to init and leaves a zombie. -/
theorem exit_wakes (e : exit s c = some s') :
    ∃ p s2, (s.cpus c).proc = some p ∧ Wakes (exitStart s p) s2 (ExitWakes s p) ∧ s' =
      (s2.setState p .zombie).idle c := by
  obtain ⟨p, hp, e⟩ := Option.bind_eq_some_iff.1 e
  simp only at e
  split at e
  · cases e
  · rename_i hi
    obtain ⟨s1, e1, e⟩ := Option.bind_eq_some_iff.1 e
    obtain ⟨s2, e2, e⟩ := Option.bind_eq_some_iff.1 e
    obtain ⟨w, -⟩ := abandon_wakes hi e1 e2
    obtain ⟨r, hr, e⟩ := Option.bind_eq_some_iff.1 e
    split at e
    · cases e
    · exact ⟨p, s2, hp, w, (Option.some.inj e).symm⟩

theorem Inv.reparent (h : Inv b s q) (cur p : Slot) :
    ∃ s' q', reparent cur s p = some s' ∧ Inv b s' q' ∧
      Pushes s q q' fun r => (s.proc r).state = .sleeping ∧ Orphaned s cur p r := by
  unfold Sched.reparent
  split
  · rename_i hpar
    have h1 : Inv b (s.modProc p fun r => { r with parent := s.initproc }) q := h.modProc_data rfl rfl
    have w1 := wakes_modProc (s := s) (p := p) (f := fun r => { r with parent := s.initproc }) rfl rfl
    simp only
    split
    · rename_i hz
      rw [w1.zombie] at hz
      obtain ⟨s2, q2, e2, h2, l2⟩ := h1.wakeup1 (s.initproc.map .proc)
      refine ⟨s2, q2, e2, h2, w1.pushes l2 ?_⟩
      rintro r ⟨hs, hc⟩
      exact ⟨w1.sleeping hs, hpar, hz, (w1.agree r).chan.symm.trans hc⟩
    · exact ⟨_, q, rfl, h1, .refl s q _⟩
  · exact ⟨s, q, rfl, h, .refl s q _⟩

theorem Inv.reparentLoop (cur : Slot) : ∀ (l : List Slot) {s : Kernel n} {q : Fin n → List Slot}, Inv b s q →
    s.initproc ≠ some cur →
    ∃ s' q', l.foldlM (Sched.reparent cur) s = some s' ∧ Inv b s' q' ∧
      Pushes s q q' fun r => (s.proc r).state = .sleeping ∧ ∃ p, Orphaned s cur p r
  | [], s, q, h, _ => ⟨s, q, rfl, h, .refl s q _⟩
  | a :: l, s, q, h, hi => by
    obtain ⟨s1, q1, e1, h1, l1⟩ := h.reparent cur a
    obtain ⟨w1, -⟩ := reparent_wakes e1
    obtain ⟨s2, q2, e2, h2, l2⟩ := Inv.reparentLoop cur l h1 (by rw [w1.initproc]; exact hi)
    refine ⟨s2, q2, ?_, h2, (l1.mono fun r hr => ⟨hr.1, a, hr.2⟩).trans (w1.pushes l2 ?_)⟩
    · rw [List.foldlM_cons, e1]; exact e2
    · rintro r ⟨hs, p, hp⟩; exact ⟨w1.sleeping hs, p, ((orphaned_later hi e1 p r).1 hp).2⟩

theorem Inv.abandon (h : Inv b s q) (hi : s.initproc ≠ some p) :
    ∃ s1 s2 q2, Sched.wakeup1 (((exitStart s p).proc p).parent.map .proc) (exitStart s p) = some s1 ∧
      (List.finRange NPROC).foldlM (Sched.reparent p) s1 = some s2 ∧ Inv b s2 q2 ∧
      Pushes s q q2 fun r => (s.proc r).state = .sleeping ∧ ExitWakes s p r := by
  obtain ⟨hc0, hf0, hb0, hi0⟩ := exitStart_rest s p
  have hfld := exitStart_fields s p
  have h0 : Inv b (exitStart s p) q := by
    have h' : Inv b (s.modProc p fun r => { r with etime := s.ticks }) q := h.modProc_data rfl rfl
    exact h'.congr (exitStart_proc s p) hc0 hf0 hb0
  obtain ⟨s1, q1, e1, h1, l1⟩ := h0.wakeup1 (((exitStart s p).proc p).parent.map .proc)
  obtain ⟨w1, p1⟩ := wakeup1_wakes e1
  obtain ⟨s2, q2, e2, h2, l2⟩ := Inv.reparentLoop p (List.finRange NPROC) h1 (by rw [w1.initproc, hi0]; exact hi)
  have ht : ∀ d, ((exitStart s p).cpus d).coreType = (s.cpus d).coreType := fun d => by rw [hc0]
  have l1' : Pushes s q q1 fun r => (s.proc r).state = .sleeping ∧ ExitWakes s p r := by
    refine (l1.congr ht).mono ?_
    rintro r ⟨hs, hc⟩
    rw [(hfld r).1] at hs
    rw [(hfld r).2.2, (hfld p).2.1] at hc
    exact ⟨hs, .inl hc⟩
  have l2' : Pushes s q1 q2 fun r => (s.proc r).state = .sleeping ∧ ExitWakes s p r := by
    refine (w1.pushes l2 ?_).congr ht
    rintro r ⟨hs, x, hx⟩
    have hs := w1.sleeping hs
    rw [(hfld r).1] at hs
    exact ⟨hs, .inr ⟨x, (orphaned_exitStart w1 p1 x r).1 hx⟩⟩
  exact ⟨s1, s2, q2, e1, e2, h2, l1'.trans l2'⟩

theorem Inv.exit (h : Inv b s q) (hp : (s.cpus c).proc = some p) (hi : s.initproc ≠ some p) :
    ∃ s2 q', exit s c = some ((s2.setState p .zombie).idle c) ∧ Inv b ((s2.setState p .zombie).idle c) q' ∧
      Frame s q ((s2.setState p .zombie).idle c) q' (fun r => (s.proc r).state = .sleeping ∧
      ExitWakes s p r) (· = p) E ∧ Wakes (exitStart s p) s2 (ExitWakes s p) ∧
      (∀ r, (s2.proc r).parent = if (s.proc r).parent = some p then s.initproc else (s.proc r).parent) ∧
      Pushes s q q' fun r => (s.proc r).state = .sleeping ∧ ExitWakes s p r := by
  obtain ⟨s1, s2, q2, e1, e2, h2, hl⟩ := h.abandon hi
  obtain ⟨w, hpar⟩ := abandon_wakes hi e1 e2
  have hp2 : (s2.cpus c).proc = some p := by rw [(w.cpu c).1, (exitStart_rest s p).1]; exact hp
  obtain ⟨e3, h3⟩ := h2.park hp2 (f := fun r => { r with state := .zombie }) rfl (by simp) (by simp)
  refine ⟨s2, q2, ?_, h3, ?_, w, hpar, hl⟩
  · unfold Sched.exit
    simp only [hp, Option.bind_eq_bind, Option.bind_some, if_neg hi]
    rw [show (if (s.modProc p fun r => { r with etime := s.ticks }).metricsActive then _ else _) =
      exitStart s p from rfl, e1, Option.bind_some, e2, Option.bind_some]
    exact e3
  · -- the clock reading, the wakeups, and the last change of state
    have f0 : Frame s q (exitStart s p) q (fun r => (s.proc r).state = .sleeping ∧ ExitWakes s p r) (· = p)
        fun _ _ => False :=
      (Frame.modProc_data (p := p) (f := fun r => { r with etime := s.ticks }) rfl rfl).congr (exitStart_proc s p)
    have f1 : Frame (exitStart s p) q s2 q2 (fun r => (s.proc r).state = .sleeping ∧ ExitWakes s p r) (· = p)
        fun _ _ => False :=
      w.frame fun r hr => (hl.listed hr).imp_left .inl
    have f2 : Frame s2 q2 (s2.setState p .zombie) q2 (fun r => (s.proc r).state = .sleeping ∧
        ExitWakes s p r) (· = p) E :=
      .modProc (by simp) (fun _ => .inr rfl) (.inl rfl) (by simp)
    exact ((f0.trans f1).trans f2).congr rfl

end

theorem Inv.sleep (h : Inv b s q) (hp : (s.cpus c).proc = some p) (ch : Option Chan) (hE : E p ch) :
    sleep s c ch = some ((s.modProc p fun r => { r with chan := ch, state := .sleeping }).idle c) ∧
      Inv b ((s.modProc p fun r => { r with chan := ch, state := .sleeping }).idle c) q ∧
      Frame s q ((s.modProc p fun r => { r with chan := ch, state := .sleeping }).idle c) q A X E := by
  obtain ⟨e, hI⟩ := h.park hp (f := fun r => { r with chan := ch, state := .sleeping }) rfl (by simp) (by simp)
  have hf : Frame s q (s.modProc p fun r => { r with chan := ch, state := .sleeping }) q A X E :=
    .modProc (by simp) (fun _ => .inl (.inl (by simp))) (.inr (.inr hE)) fun _ => .inr hE
  refine ⟨?_, hI, hf.congr rfl⟩
  unfold Sched.sleep
  simp only [hp, Option.bind_eq_bind, Option.bind_some]
  exact e

theorem Inv.wait (h : Inv b s q) (hp : (s.cpus c).proc = some p) (hE : E p (some (.proc p))) :
    ∃ r s', wait s c = some (r, s') ∧ Inv b s' q ∧ Frame s q s' q A X E := by
  unfold Sched.wait
  simp only [hp, Option.bind_eq_bind, Option.bind_some]
  split
  · rename_i k hk
    have hz : (s.proc k).state = .zombie := by
      have := List.find?_some hk
      simp only [Bool.decide_and, Bool.and_eq_true, decide_eq_true_eq] at this
      exact this.2
    exact ⟨_, _, rfl, h.modProc_idle rfl (by simp [hz]) (by simp [hz]) (h.not_building (by simp [hz])) (by simp)
      (by simp), Frame.modProc_dead (by simp [Alive, hz]) (by simp) (by simp) rfl⟩
  · split
    · exact ⟨_, _, rfl, h, .refl s q⟩
    · obtain ⟨e, hI, f⟩ := h.sleep hp (some (.proc p)) hE; exact ⟨_, _, by rw [e]; rfl, hI, f⟩

theorem Inv.kill (h : Inv b s q) (pid : Int)
    (ht : b = true → ∀ k, killTarget s pid = some k → (s.proc k).state ≠ .sleeping) :
    Inv b (kill s pid).2 q ∧ Frame s q (kill s pid).2 q A X E := by
  unfold Sched.kill
  split
  · exact ⟨h, .refl s q⟩
  · rename_i k hk
    simp only
    by_cases hs : (s.proc k).state = .sleeping
    · refine ⟨h.modProc_idle (p := k) rfl (by simp [hs]) (by simp [hs]) (h.not_building (by simp [hs])) (by simp [hs])
        fun hb => absurd hs (ht hb k hk), .modProc ?_ ?_ (.inl rfl) ?_⟩
      · intro hr; simp [hs] at hr
      · intro _; left; right; left; simp [hs]
      · intro hr; simp [hs] at hr
    · exact ⟨h.modProc_data (p := k) rfl (by simp [hs]), Frame.modProc_data (by simp [hs]) rfl⟩

end Xv6.Sched
