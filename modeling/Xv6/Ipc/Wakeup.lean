/-
Who sleeps on a pipe. Every step that ends the wait of a reader or a writer is followed, before the
lock is given back, by a `wakeup` on its channel, with one exception: a `pipewrite` that has stored
bytes, finds the pipe full and gives up, because its process has been killed or the read end is
closed, returns without `wakeup(&p->nread)`. A reader that went to sleep on the empty pipe then
stays asleep on a full one. In runs in which no writer gives up so, nobody sleeps who could go on.
-/
import Xv6.Ipc.Fifo

namespace Xv6.Ipc

open Base Function

/-- The channel a process sleeps on. -/
def Pc.asleepOn : Pc → Option Chan
  | .wAsleep _ => some .nwrite
  | .rAsleep _ => some .nread
  | _ => none

/-- There is nothing to do for who sleeps on the channel. -/
def Pipe.Idle (pi : Pipe) : Chan → Prop
  | .nread => pi.Empty ∧ pi.writeopen = true
  | .nwrite => pi.Full ∧ pi.readopen = true

/-- Will the process call `wakeup` on the channel? A writer that has stored nothing since it took the
lock need not. -/
def Pc.owes (x : Pc) : Chan → Prop
  | .nread =>
    match x with
    | .wLoop w | .wTest w | .wFull w | .wWake w | .wDone w => w.fresh = false
    | _ => False
  | .nwrite =>
    match x with
    | .rLoop _ | .rDone _ => True
    | _ => False

/-- What a process with the lock has seen of the pipe on its way to sleep. -/
def Pc.Saw (pi : Pipe) : Pc → Prop
  | .rKilled _ | .rSleep _ => pi.Idle .nread
  | .wFull _ => pi.Full
  | .wWake _ | .wSleep _ => pi.Idle .nwrite
  | _ => True

/-- A writer gives up at a full pipe that it has filled itself. -/
def Pc.GivesUp (pi : Pipe) (killed : Bool) (x : Pc) : Prop :=
  ∃ w, x = .wFull w ∧ w.fresh = false ∧ (pi.readopen = false ∨ killed = true)

variable {pi : Pipe} {x : Pc} {e : Effect} {c : Chan}

section

variable {killed : Bool}

theorem owes_holds (h : x.owes c) : x.holds = true := by
  cases c <;> cases x <;> first | rfl | exact h.elim

theorem wake_owes (c c' : Chan) (x : Pc) : (x.wake c).owes c' ↔ x.owes c' := by
  cases x <;> simp only [Pc.wake] <;> split <;> cases c' <;> exact Iff.rfl

theorem wake_saw (c : Chan) (x : Pc) : (x.wake c).Saw pi ↔ x.Saw pi := by
  cases x <;> simp only [Pc.wake] <;> split <;> exact Iff.rfl

theorem wake_asleepOn {c' : Chan} (h : (x.wake c).asleepOn = some c') : x.asleepOn = some c' ∧ c' ≠ c := by
  cases x <;> simp only [Pc.wake] at h <;> try cases h
  · split at h
    · cases h
    · cases h; exact ⟨rfl, fun hc => ‹¬ _› hc.symm⟩
  · split at h
    · cases h
    · cases h; exact ⟨rfl, fun hc => ‹¬ _› hc.symm⟩

theorem next_saw (hx : x.Saw pi) (h : next pi killed x = some e) : e.pc.Saw e.pipe := by
  cases x with
  | wTest w =>
    simp only [next] at h
    split at h
    · cases h; assumption
    · cases h; trivial
  | wFull w =>
    simp only [next] at h
    split at h
    · cases h; trivial
    · rename_i hgo; cases h; exact ⟨hx, by simpa using fun hro => hgo (.inl hro)⟩
  | rTest r =>
    cases h
    dsimp only
    split
    · assumption
    · trivial
  | rKilled r =>
    simp only [next] at h
    split at h
    · cases h; trivial
    · cases h; exact hx
  | wLoop w =>
    cases h
    dsimp only
    split <;> trivial
  | rLoop r =>
    simp only [next] at h
    split at h <;> cases h <;> trivial
  | wWake w => cases h; exact hx
  | wEnter w | wSleep w | wBack w | wDone w | wLeave w | rEnter r | rSleep r | rDone r
  | rLeave r | cEnter w | cShut w | cLeave =>
    cases h; trivial
  | out | wAsleep w | rAsleep r => cases h

theorem next_asleep (hx : x.Saw pi) (h : next pi killed x = some e) (hc : e.pc.asleepOn = some c) : e.pipe.Idle c := by
  cases x with
  | wSleep w | rSleep r => cases h; cases hc; exact hx
  | _ =>
    simp only [next, reduceCtorEq] at h
    all_goals (try split at h) <;> cases h <;> cases hc

/-- A step that gives sleepers something to do is by a process that will call `wakeup`, or does. -/
theorem next_idle (h : next pi killed x = some e) (hc : pi.Idle c) :
    e.pipe.Idle c ∨ e.pc.owes c ∨ e.wake = some c := by
  rcases next_ring h with ⟨b, hfull, hpipe, hout⟩ | ⟨hne, hpipe, hout⟩ | ⟨hd, hr, hw, -, -⟩
  · cases c with
    | nwrite => exact absurd hc.1 hfull
    | nread =>
      -- a store
      right; left
      cases x <;> simp only [next, reduceCtorEq] at h <;> (try split at h) <;> cases h <;> cases hout
      rfl
  · cases c with
    | nread => exact absurd hc.1 hne
    | nwrite =>
      right; left
      cases x <;> simp only [next, reduceCtorEq] at h <;> (try split at h) <;> cases h <;> cases hout
      trivial
  · by_cases hx : ∃ writable, x = .cShut writable
    · obtain ⟨writable, rfl⟩ := hx
      cases h
      cases writable <;> cases c
      · exact .inl hc
      · exact .inr (.inr rfl)
      · exact .inr (.inr rfl)
      · exact .inl hc
    · left
      have hopen : e.pipe.readopen = pi.readopen ∧ e.pipe.writeopen = pi.writeopen := by
        cases x with
        | cShut writable => exact absurd ⟨writable, rfl⟩ hx
        | _ =>
          simp only [next, reduceCtorEq] at h
          all_goals (try split at h) <;> cases h <;> exact ⟨rfl, rfl⟩
      cases c
      · exact ⟨by rw [Pipe.Empty, hr, hw]; exact hc.1, hopen.2.trans hc.2⟩
      · exact ⟨by rw [Pipe.Full, hr, hw]; exact hc.1, hopen.1.trans hc.2⟩

/-- A process that is to call `wakeup` still is, or does, or gives up. -/
theorem next_owes (h : next pi killed x = some e) (hc : x.owes c) :
    e.pc.owes c ∨ e.wake = some c ∨ c = .nread ∧ x.GivesUp pi killed := by
  cases c with
  | nread =>
    cases x with
    | wLoop w =>
      cases h
      left
      dsimp only
      split <;> exact hc
    | wTest w =>
      simp only [next] at h
      split at h
      · cases h; exact .inl hc
      · cases h; exact .inl rfl
    | wFull w =>
      simp only [next] at h
      split at h
      · rename_i hgive; exact .inr (.inr ⟨rfl, w, rfl, hc, hgive⟩)
      · cases h; exact .inl hc
    | wWake w | wDone w => cases h; exact .inr (.inl rfl)
    | _ => exact hc.elim
  | nwrite =>
    cases x with
    | rLoop r =>
      simp only [next] at h
      split at h <;> cases h <;> exact .inl trivial
    | rDone r => cases h; exact .inr (.inl rfl)
    | _ => exact hc.elim

end

/-! ## Runs -/

variable {P : Type} {s s' : State P}

/-- A process asleep has nothing to do, or a `wakeup` for it is on its way. -/
structure Settled (s : State P) : Prop where
  saw : ∀ p, (s.pc p).Saw s.pipe
  asleep : ∀ q c, (s.pc q).asleepOn = some c → s.pipe.Idle c ∨ ∃ p, (s.pc p).owes c

/-- A writer that gives up at a full pipe has stored nothing since it took the lock, or no process
sleeps in `piperead`. -/
def GivesUpQuietly (s : State P) : Act P → Prop
  | .step p => (s.pc p).GivesUp s.pipe (s.killed p) → ∀ q, (s.pc q).asleepOn ≠ some .nread
  | .call _ _ | .kill _ => True

theorem Pc.Saw.of_not_holds (h : x.holds = false) : x.Saw pi := by
  cases x <;> trivial

theorem pipealloc_settled (h : pipealloc s) : Settled s := by
  obtain ⟨data, killed, rfl⟩ := h; exact ⟨fun _ => trivial, nofun⟩

variable [DecidableEq P]

namespace Settled

variable {p : P}

/-- Process `p` goes on to `x`, which sleeps only where it slept and owes what it owed. -/
theorem move (hs : Settled s) (hpi : s'.pipe = s.pipe) (hpc : s'.pc = update s.pc p x) (hsaw : x.Saw s.pipe)
    (hsleep : ∀ c, x.asleepOn = some c → (s.pc p).asleepOn = some c) (howes : ∀ c, (s.pc p).owes c → x.owes c) :
    Settled s' := by
  constructor
  · intro q
    rw [hpi, hpc]
    by_cases hq : q = p
    · subst hq; rwa [update_self]
    · rw [update_of_ne hq]; exact hs.saw q
  · intro q c hq
    rw [hpc] at hq ⊢
    rw [hpi]
    have hq' : (s.pc q).asleepOn = some c := by
      by_cases hqp : q = p
      · subst hqp; rw [update_self] at hq; exact hsleep c hq
      · rwa [update_of_ne hqp] at hq
    refine (hs.asleep q c hq').imp_right fun ⟨u, hu⟩ => ⟨u, ?_⟩
    by_cases hup : u = p
    · subst hup; rw [update_self]; exact howes c hu
    · rwa [update_of_ne hup]

theorem call (hs : Settled s) {c : Call} (h : Ipc.step s (.call p c) = some s') : Settled s' := by
  obtain ⟨hp, rfl⟩ := step_call h
  refine hs.move rfl rfl (by cases c <;> trivial) (fun c' h => by cases c <;> cases h) fun c' hu => ?_
  rw [hp] at hu
  cases c' <;> exact hu.elim

theorem kill (hs : Settled s) (h : Ipc.step s (.kill p) = some s') : Settled s' := by
  cases h
  refine hs.move rfl rfl ?_ (fun c h => (wake_asleepOn (wake_asleepOn h).1).1) fun c hu => ?_
  · rw [Pc.stir, wake_saw, wake_saw]; exact hs.saw p
  · rwa [Pc.stir, wake_owes, wake_owes]

theorem asleep_of_after {lock : Option P} {q : P} (hq : q ≠ p) (h : ((s.after p e lock).pc q).asleepOn = some c) :
    (s.pc q).asleepOn = some c ∧ e.wake ≠ some c := by
  rw [after_pc_of_ne hq] at h
  cases hw : e.wake with
  | none => rw [hw] at h; exact ⟨h, nofun⟩
  | some c' =>
    rw [hw] at h
    obtain ⟨h1, h2⟩ := wake_asleepOn h
    exact ⟨h1, fun heq => h2 (Option.some.inj heq).symm⟩

theorem step (hh : Holder s) (hs : Settled s) (hok : GivesUpQuietly s (.step p)) (h : Ipc.step s (.step p) = some s') :
    Settled s' := by
  obtain ⟨e, lock, he, hl, rfl⟩ := step_step h
  have hholds := next_holds he
  -- another process is not inside: the lock is free, or `p` has it
  have hother : ∀ q, q ≠ p → (s.pc q).holds = false := fun q hq => by
    by_contra hhq
    rw [Bool.not_eq_false] at hhq
    rcases hholds with ⟨hlock, -, -⟩ | ⟨-, hx, -⟩ | ⟨-, hx, -⟩
    · rw [hlock] at hl
      obtain ⟨hfree, -⟩ := Option.ite_none_right_eq_some.1 hl
      rw [(hh q).1 hhq] at hfree
      cases hfree
    · exact hq (hh.unique hhq hx)
    · exact hq (hh.unique hhq hx)
  constructor
  · intro q
    by_cases hq : q = p
    · subst hq; rw [after_pc_self]; exact next_saw (hs.saw q) he
    · apply Pc.Saw.of_not_holds; rw [after_holds_of_ne hq]; exact hother q hq
  · intro q c hq
    by_cases hqp : q = p
    · subst hqp; rw [after_pc_self] at hq; exact .inl (next_asleep (hs.saw q) he hq)
    · obtain ⟨hq', hwake⟩ := asleep_of_after hqp hq
      have howes : e.pc.owes c → ∃ u, ((s.after p e lock).pc u).owes c := fun ho => ⟨p, by rwa [after_pc_self]⟩
      rcases hs.asleep q c hq' with hidle | ⟨u, hu⟩
      · rcases next_idle he hidle with h1 | h1 | h1
        · exact .inl h1
        · exact .inr (howes h1)
        · exact absurd h1 hwake
      · have hup : u = p := by
          by_contra hne
          have := hother u hne
          rw [owes_holds hu] at this
          cases this
        subst hup
        rcases next_owes he hu with h1 | h1 | ⟨rfl, hgive⟩
        · exact .inr (howes h1)
        · exact absurd h1 hwake
        · exact absurd hq' (hok hgive q)

end Settled

theorem settled_step {a : Act P} (hh : Holder s) (hs : Settled s) (hok : GivesUpQuietly s a) (h : step s a = some s') :
    Settled s' := by
  cases a with
  | call p c => exact hs.call h
  | step p => exact hs.step hh hok h
  | kill p => exact hs.kill h

theorem reach_settled (h : Reach pipealloc step GivesUpQuietly s) : Settled s :=
  h.inv_of (fun _ hr => (reach_pipeInv hr).holder) (fun _ => pipealloc_settled)
    fun _ _ _ hh hs hok hstep => settled_step hh hs hok hstep

/-- In a run in which no writer gives up at a pipe it has filled while a reader sleeps, while the lock
is free a process that sleeps in `piperead` sleeps on an empty pipe with its write end open, and one
that sleeps in `pipewrite` on a full pipe with its read end open. -/
theorem no_sleeper_left {s : State P} (h : Reach pipealloc step GivesUpQuietly s) (hfree : s.lock = none) (p : P) :
    (∀ r, s.pc p = .rAsleep r → s.pipe.Empty ∧ s.pipe.writeopen = true) ∧
      ∀ w, s.pc p = .wAsleep w → s.pipe.Full ∧ s.pipe.readopen = true := by
  have hs := reach_settled h
  have hh := (reach_pipeInv h).holder
  have hidle : ∀ c, (s.pc p).asleepOn = some c → s.pipe.Idle c := fun c hc => by
    refine (hs.asleep p c hc).resolve_right ?_
    rintro ⟨u, hu⟩
    have := (hh u).1 (owes_holds hu)
    rw [hfree] at this
    cases this
  constructor
  · intro r hr; exact hidle .nread (by rw [hr]; rfl)
  · intro w hw; exact hidle .nwrite (by rw [hw]; rfl)

/-- A reader goes to sleep on the empty pipe. -/
def readerSleeps : List (Act Bool) := .call true (.read 1) :: List.replicate 4 (.step true)

instance (pi : Pipe) (killed : Bool) : (x : Pc) → Decidable (x.GivesUp pi killed)
  | .wFull w =>
    if h : w.fresh = false ∧ (pi.readopen = false ∨ killed = true) then .isTrue ⟨w, rfl, h⟩
    else .isFalse fun ⟨_, hw, hg⟩ => h (by cases hw; exact hg)
  | .out | .wEnter _ | .wLoop _ | .wTest _ | .wWake _ | .wSleep _ | .wAsleep _ | .wBack _ | .wDone _ | .wLeave _
  | .rEnter _ | .rTest _ | .rKilled _ | .rSleep _ | .rAsleep _ | .rLoop _ | .rDone _ | .rLeave _
  | .cEnter _ | .cShut _ | .cLeave => .isFalse fun ⟨_, hw, _⟩ => by cases hw

instance (s : State Bool) : (a : Act Bool) → Decidable (GivesUpQuietly s a)
  | .step _ => inferInstanceAs (Decidable (_ → _))
  | .call _ _ | .kill _ => inferInstanceAs (Decidable True)

theorem no_sleeper_left_reader : ∃ s : State Bool, s.lock = none ∧ (∃ r, s.pc true = .rAsleep r) ∧ s.pipe.Empty := by
  have hrun : (runActs (guarded step GivesUpQuietly) ({ pipe := { data := fun _ => 0 } } : State Bool) readerSleeps).any
      (fun s => decide (s.lock = none ∧ (s.pc true).asleepOn = some .nread)) = true := by decide +kernel
  obtain ⟨s, hr, hs⟩ := exists_reach_of_guarded_run pipealloc GivesUpQuietly ⟨_, _, rfl⟩ _ _ hrun
  obtain ⟨hfree, hasleep⟩ := of_decide_eq_true hs
  have hpc : ∃ r, s.pc true = .rAsleep r := by
    cases hx : s.pc true <;> rw [hx] at hasleep <;> cases hasleep
    exact ⟨_, rfl⟩
  obtain ⟨r, hpc⟩ := hpc
  exact ⟨s, hfree, ⟨r, hpc⟩, ((no_sleeper_left hr hfree true).1 r hpc).1⟩

/-- A reader sleeps; a writer of 513 bytes fills the pipe, is killed, and gives up. -/
def writerKilled : List (Act Bool) :=
  readerSleeps ++ .call false (.write (fun _ => 0) 513) :: List.replicate 1027 (.step false) ++
    [.kill false, .step false]

theorem reader_left_asleep :
    ∃ s : State Bool, Reachable pipealloc step s ∧ s.lock = none ∧ (∃ r, s.pc true = .rAsleep r) ∧
    s.pipe.Full ∧ ¬ s.pipe.Empty := by
  have hrun : (runActs step ({ pipe := { data := fun _ => 0 } } : State Bool) writerKilled).any
      (fun s => decide (s.lock = none ∧ (s.pc true).asleepOn = some .nread ∧ s.pipe.Full ∧ ¬ s.pipe.Empty)) = true := by
    decide +kernel
  obtain ⟨s, hr, hs⟩ := exists_reachable_of_run pipealloc ⟨_, _, rfl⟩ _ _ hrun
  obtain ⟨hfree, hasleep, hfull, hne⟩ := of_decide_eq_true hs
  refine ⟨s, hr, hfree, ?_, hfull, hne⟩
  cases hx : s.pc true <;> rw [hx] at hasleep <;> cases hasleep
  exact ⟨_, rfl⟩

end Xv6.Ipc
