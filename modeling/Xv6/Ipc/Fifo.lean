/-
A pipe loses, repeats and reorders nothing. The bytes stored, in the order in which they were stored,
begin with the bytes that calls of `piperead` have returned, in the order in which they returned, and
each `pipewrite` has stored the first bytes of its data, all of them if it returns `n`. The counters
`nread` and `nwrite` are never reset; that they wrap makes no difference, since `PIPESIZE` divides 2^32.
-/
import Xv6.Ipc.Pipe

namespace Xv6.Ipc

open Base Ring Function

variable {P : Type} {s s' : State P} {p : P}

/-! ## Histories -/

/-- The byte a step stored. -/
def Out.stored : Out → Option UInt8
  | .store b => some b
  | _ => none

/-- The byte a step took. -/
def Out.taken : Out → Option UInt8
  | .take b => some b
  | _ => none

/-- The bytes a `piperead` returned. -/
def Out.returned : Out → List UInt8
  | .read bytes => bytes
  | _ => []

def stored (h : List (Ev P)) : List UInt8 := h.filterMap fun e => e.out.stored

def taken (h : List (Ev P)) : List UInt8 := h.filterMap fun e => e.out.taken

def returned (h : List (Ev P)) : List UInt8 := h.flatMap fun e => e.out.returned

/-- The bytes stored by the `k`-th call of process `p`. -/
def storedBy [DecidableEq P] (p : P) (k : Nat) (h : List (Ev P)) : List UInt8 :=
  stored (h.filter fun e => e.p = p ∧ e.call = k)

@[simp] theorem stored_append (h h' : List (Ev P)) : stored (h ++ h') = stored h ++ stored h' :=
  List.filterMap_append

@[simp] theorem taken_append (h h' : List (Ev P)) : taken (h ++ h') = taken h ++ taken h' := List.filterMap_append

@[simp] theorem returned_append (h h' : List (Ev P)) : returned (h ++ h') = returned h ++ returned h' :=
  List.flatMap_append

def State.event (s : State P) (p : P) (o : Option Out) : List (Ev P) := (o.map fun o => ⟨p, s.calls p, o⟩).toList

@[simp] theorem stored_event (s : State P) (p : P) (o : Option Out) :
    stored (s.event p o) = (o.bind Out.stored).toList := by
  cases o with
  | none => rfl
  | some o => cases h : o.stored <;> simp [State.event, stored, h]

@[simp] theorem taken_event (s : State P) (p : P) (o : Option Out) :
    taken (s.event p o) = (o.bind Out.taken).toList := by
  cases o with
  | none => rfl
  | some o => cases h : o.taken <;> simp [State.event, taken, h]

@[simp] theorem returned_event (s : State P) (p : P) (o : Option Out) :
    returned (s.event p o) = o.elim [] Out.returned := by
  cases o with
  | none => rfl
  | some o => simp [State.event, returned]

variable {pi : Pipe} {killed : Bool} {x : Pc} {e : Effect} {a : Act P} {st : List UInt8}
  {k : Nat}

theorem mem_event {o : Option Out} {e : Ev P} (h : e ∈ s.event p o) :
    e.p = p ∧ e.call = s.calls p ∧ o = some e.out := by
  cases o with
  | none => cases h
  | some o =>
    cases List.mem_singleton.1 h
    exact ⟨rfl, rfl, rfl⟩

/-! ## The ring -/

/-- The pipe holds what has been stored and not taken. -/
def Queue (s : State P) : Prop :=
  Fifo (2 ^ 32) s.pipe.data s.pipe.nread.toNat s.pipe.nwrite.toNat (taken s.hist) (stored s.hist)

theorem pipesize_dvd : PIPESIZE ∣ 2 ^ 32 := by decide

theorem pipesize_lt : PIPESIZE < 2 ^ 32 := by decide

namespace Queue

theorem empty_iff (h : Queue s) : s.pipe.Empty ↔ (taken s.hist).length = (stored s.hist).length := by
  rw [← Fifo.empty_iff h pipesize_lt, UInt32.toNat_inj]

theorem full_iff (h : Queue s) : s.pipe.Full ↔ (stored s.hist).length = (taken s.hist).length + PIPESIZE := by
  rw [← Fifo.full_iff h pipesize_lt, Pipe.Full, ← UInt32.toNat_inj, UInt32.toNat_add]; rfl

theorem diff (h : Queue s) : (s.pipe.nwrite - s.pipe.nread).toNat = (stored s.hist).length - (taken s.hist).length := by
  rw [UInt32.toNat_sub, add_comm]; exact Fifo.diff h pipesize_lt

end Queue

theorem next_ring (h : next pi killed x = some e) : (∃ b, ¬ pi.Full ∧ e.pipe = pi.put b ∧ e.out = some (.store b)) ∨
      (¬ pi.Empty ∧ e.pipe = pi.advance ∧ e.out = some (.take pi.first)) ∨
      (e.pipe.data = pi.data ∧ e.pipe.nread = pi.nread ∧ e.pipe.nwrite = pi.nwrite ∧ e.out.bind Out.stored = none ∧
        e.out.bind Out.taken = none) := by
  cases x with
  | wTest w =>
    simp only [next] at h
    split at h
    · cases h; exact .inr (.inr ⟨rfl, rfl, rfl, rfl, rfl⟩)
    · rename_i hfull; cases h; exact .inl ⟨_, hfull, rfl, rfl⟩
  | rLoop r =>
    simp only [next] at h
    split at h
    · rename_i hc; cases h; exact .inr (.inl ⟨hc.2, rfl, rfl⟩)
    · cases h; exact .inr (.inr ⟨rfl, rfl, rfl, rfl, rfl⟩)
  | cShut writable =>
    cases h
    cases writable <;> exact .inr (.inr ⟨rfl, rfl, rfl, rfl, rfl⟩)
  | _ =>
    simp only [next, reduceCtorEq] at h
    all_goals (try split at h) <;> cases h <;> exact .inr (.inr ⟨rfl, rfl, rfl, rfl, rfl⟩)

theorem pipealloc_queue (h : pipealloc s) : Queue s := by
  obtain ⟨data, killed, rfl⟩ := h; exact Fifo.start _ data

variable [DecidableEq P]

theorem queue_step (hq : Queue s) (h : step s a = some s') : Queue s' := by
  cases a with
  | call p c => obtain ⟨-, rfl⟩ := step_call h; exact hq
  | kill p => cases h; exact hq
  | step p =>
    obtain ⟨e, lock, he, -, rfl⟩ := step_step h
    show Fifo _ e.pipe.data e.pipe.nread.toNat e.pipe.nwrite.toNat (taken (s.hist ++ s.event p e.out))
      (stored (s.hist ++ s.event p e.out))
    rw [taken_append, stored_append, taken_event, stored_event]
    rcases next_ring he with ⟨b, hfull, hpipe, hout⟩ | ⟨hne, hpipe, hout⟩ | ⟨hd, hr, hw, hst, htk⟩
    · rw [hpipe, hout]
      have hroom : (stored s.hist).length < (taken s.hist).length + PIPESIZE := by
        have := mt hq.full_iff.2 hfull; have := Fifo.room hq; omega
      have hpush := Fifo.push hq pipesize_dvd hroom b
      simpa [Pipe.put, UInt32.toNat_add, Out.stored, Out.taken] using hpush
    · rw [hpipe, hout]
      have hlt : (taken s.hist).length < (stored s.hist).length := by
        have := mt hq.empty_iff.2 hne; have := Fifo.length_le hq; omega
      have hpop := Fifo.pop hq pipesize_dvd hlt
      simpa [Pipe.advance, Pipe.first, UInt32.toNat_add, Out.stored, Out.taken] using hpop
    · rw [hd, hr, hw, hst, htk, Option.toList_none, List.append_nil, List.append_nil]; exact hq

/-! ## Calls -/

/-- What is known at a point of a call that has stored the bytes `st`: a writer has stored the first
`i` of its bytes, and a reader has copied nothing before its loop. -/
def Pc.Ok (st : List UInt8) : Pc → Prop
  | .out | .rLoop _ | .rDone _ | .rLeave _ | .cEnter _ | .cShut _ | .cLeave => True
  | .wEnter w => w.i = 0 ∧ st = []
  | .wLoop w => w.i ≤ w.n.toNat ∧ st = w.data.take w.i
  | .wTest w | .wFull w | .wWake w | .wSleep w | .wAsleep w | .wBack w => w.i < w.n.toNat ∧ st = w.data.take w.i
  | .wDone w | .wLeave w => st = w.data
  | .rEnter r | .rTest r | .rKilled r | .rSleep r | .rAsleep r => r.got = []

/-- The bytes a reader in its loop has copied. -/
def Pc.inHand : Pc → List UInt8
  | .rLoop r | .rDone r | .rLeave r => r.got
  | _ => []

theorem Write.length_data (w : Write) : w.data.length = w.n.toNat := by simp [Write.data]

theorem wake_ok (c : Chan) (h : x.Ok st) : (x.wake c).Ok st := by
  cases x <;> simp only [Pc.wake] <;> first | exact h | (split <;> exact h)

/-- What a `pipewrite` with result `r` has stored. -/
def Wrote (w : Write) (r : Int) (st : List UInt8) : Prop := st <+: w.data ∧ (r = w.n → st = w.data)

/-- A step of a call keeps what is known, and a `pipewrite` that returns has stored what it should. -/
theorem next_ok (hx : x.Ok st) (h : next pi killed x = some e) : e.pc.Ok (st ++ (e.out.bind Out.stored).toList) ∧
      ∀ w r, e.out = some (.wrote w r) → e.pc = .out ∧ Wrote w r st := by
  have hnil : st = st ++ (none : Option UInt8).toList := (List.append_nil st).symm
  cases x with
  | wLoop w =>
    obtain ⟨hi, hst⟩ := hx
    have hlen := w.length_data
    cases h
    refine ⟨?_, fun _ _ hout => by cases hout⟩
    dsimp only [Option.bind_none]
    rw [← hnil]
    split
    · exact ⟨by omega, hst⟩
    · show st = w.data; rw [hst, List.take_of_length_le (by omega)]
  | wTest w =>
    obtain ⟨hi, hst⟩ := hx
    simp only [next] at h
    split at h
    · cases h; exact ⟨hnil ▸ ⟨hi, hst⟩, fun _ _ hout => by cases hout⟩
    · cases h
      refine ⟨⟨hi, ?_⟩, fun _ _ hout => by cases hout⟩
      show st ++ [w.addr w.i] = w.data.take (w.i + 1)
      rw [hst, List.take_add_one]
      simp [Write.data, hi]
  | wFull w =>
    obtain ⟨hi, hst⟩ := hx
    simp only [next] at h
    split at h
    · cases h
      refine ⟨trivial, fun w' r hout => ?_⟩
      cases hout
      refine ⟨rfl, ?_, fun hr => ?_⟩
      · rw [hst]; exact List.take_prefix _ _
      · rw [← hr] at hi; exact absurd hi (Nat.not_lt_zero _)
    · cases h; exact ⟨hnil ▸ ⟨hi, hst⟩, fun _ _ hout => by cases hout⟩
  | wLeave w =>
    cases h
    refine ⟨trivial, fun w' r hout => ?_⟩
    cases hout
    have hst : st = w.data := hx
    exact ⟨rfl, hst ▸ List.prefix_rfl, fun _ => hx⟩
  | wEnter w =>
    obtain ⟨hi, hst⟩ := hx
    cases h
    exact ⟨⟨by simp [hi], by simp [hi, hst]⟩, fun _ _ hout => by cases hout⟩
  | rTest r =>
    cases h
    refine ⟨?_, fun _ _ hout => by cases hout⟩
    dsimp only
    split
    · exact hx
    · trivial
  | rKilled r =>
    simp only [next] at h
    split at h
    · cases h; exact ⟨trivial, fun _ _ hout => by cases hout⟩
    · cases h; exact ⟨hx, fun _ _ hout => by cases hout⟩
  | rLoop r =>
    simp only [next] at h
    split at h <;> cases h <;> exact ⟨trivial, fun _ _ hout => by cases hout⟩
  | wWake w | wSleep w | wBack w | wDone w =>
    cases h; exact ⟨hnil ▸ hx, fun _ _ hout => by cases hout⟩
  | rEnter r | rSleep r => cases h; exact ⟨hx, fun _ _ hout => by cases hout⟩
  | rDone r | rLeave r | cEnter w | cShut w | cLeave =>
    cases h; exact ⟨trivial, fun _ _ hout => by cases hout⟩
  | out | wAsleep w | rAsleep r => cases h

theorem next_pc_ne_out (h : next pi killed x = some e) : x ≠ .out := by
  rintro rfl; cases h

/-- What the history says of the calls. -/
structure CallsInv (s : State P) : Prop where
  past : ∀ e ∈ s.hist, e.call ≤ s.calls e.p
  now : ∀ p, (s.pc p).Ok (storedBy p (s.calls p) s.hist)
  done : ∀ e ∈ s.hist, ∀ w r, e.out = .wrote w r →
    Wrote w r (storedBy e.p e.call s.hist) ∧ (e.call = s.calls e.p → s.pc e.p = .out)

theorem storedBy_append (h h' : List (Ev P)) : storedBy p k (h ++ h') = storedBy p k h ++ storedBy p k h' := by
  simp [storedBy, List.filter_append]

theorem storedBy_eq_nil {h : List (Ev P)} (hne : ∀ e ∈ h, ¬ (e.p = p ∧ e.call = k)) : storedBy p k h = [] := by
  have hf : h.filter (fun e => decide (e.p = p ∧ e.call = k)) = [] := by
    rw [List.filter_eq_nil_iff]; simpa using hne
  rw [storedBy, hf]
  rfl

theorem storedBy_event_self (s : State P) (p : P) (o : Option Out) :
    storedBy p (s.calls p) (s.event p o) = (o.bind Out.stored).toList := by
  rw [storedBy, List.filter_eq_self.2, stored_event]
  intro e he
  obtain ⟨hp, hk, -⟩ := mem_event he
  simp [hp, hk]

theorem storedBy_event_of_ne {q : P} (o : Option Out) (h : ¬ (q = p ∧ k = s.calls p)) :
    storedBy q k (s.event p o) = [] := by
  apply storedBy_eq_nil
  intro e he hqk
  obtain ⟨hp, hk, -⟩ := mem_event he
  exact h ⟨hqk.1.symm.trans hp, hqk.2.symm.trans hk⟩

namespace CallsInv

theorem call (hi : CallsInv s) {c : Call} (h : step s (.call p c) = some s') : CallsInv s' := by
  obtain ⟨hp, rfl⟩ := step_call h
  constructor
  · intro e he
    have := hi.past e he
    dsimp only
    by_cases hep : e.p = p
    · rw [hep] at this ⊢; rw [update_self]; omega
    · rwa [update_of_ne hep]
  · intro q
    dsimp only
    by_cases hq : q = p
    · subst hq
      rw [update_self, update_self, storedBy_eq_nil fun e he hek => ?_]
      · cases c with
        | write addr n => exact ⟨rfl, rfl⟩
        | read n => rfl
        | close writable => trivial
      · have := hi.past e he; rw [hek.1, hek.2] at this; omega
    · rw [update_of_ne hq, update_of_ne hq]; exact hi.now q
  · intro e he w r hout
    obtain ⟨hw, -⟩ := hi.done e he w r hout
    refine ⟨hw, fun hk => ?_⟩
    dsimp only at hk ⊢
    by_cases hep : e.p = p
    · have := hi.past e he
      rw [hep] at this hk
      rw [update_self] at hk
      omega
    · rw [update_of_ne hep] at hk ⊢; exact (hi.done e he w r hout).2 hk

theorem kill (hi : CallsInv s) (h : step s (.kill p) = some s') : CallsInv s' := by
  cases h
  refine ⟨hi.past, fun q => ?_, fun e he w r hout => ?_⟩
  · dsimp only
    by_cases hq : q = p
    · subst hq; rw [update_self]; exact wake_ok _ (wake_ok _ (hi.now q))
    · rw [update_of_ne hq]; exact hi.now q
  · obtain ⟨hw, hk⟩ := hi.done e he w r hout
    refine ⟨hw, fun hcall => ?_⟩
    have hout := hk hcall
    dsimp only
    by_cases hep : e.p = p
    · rw [hep] at hout ⊢; rw [update_self, hout]; rfl
    · rwa [update_of_ne hep]

theorem step (hi : CallsInv s) (h : Ipc.step s (.step p) = some s') : CallsInv s' := by
  obtain ⟨e, lock, he, -, rfl⟩ := step_step h
  obtain ⟨hok, hwrote⟩ := next_ok (hi.now p) he
  have hne := next_pc_ne_out he
  have hhist : (s.after p e lock).hist = s.hist ++ s.event p e.out := rfl
  have hcalls : (s.after p e lock).calls = s.calls := rfl
  constructor
  · intro v hv
    rw [hhist] at hv
    rw [hcalls]
    rcases List.mem_append.1 hv with hv | hv
    · exact hi.past v hv
    · obtain ⟨hp, hk, -⟩ := mem_event hv; exact Nat.le_of_eq (by rw [hp, hk])
  · intro q
    rw [hhist, hcalls, storedBy_append]
    by_cases hq : q = p
    · subst hq; rw [after_pc_self, storedBy_event_self]; exact hok
    · rw [after_pc_of_ne hq, storedBy_event_of_ne _ fun hqp => hq hqp.1, List.append_nil]
      cases e.wake with
      | none => exact hi.now q
      | some c => exact wake_ok c (hi.now q)
  · intro v hv w r hout
    rw [hhist] at hv
    rw [hhist, hcalls, storedBy_append]
    rcases List.mem_append.1 hv with hv | hv
    · obtain ⟨hw, hk⟩ := hi.done v hv w r hout
      -- the call of an earlier event is over, so this step is of another call
      have hother : ¬ (v.p = p ∧ v.call = s.calls p) := fun hvp => by
        have hpc := hk (by rw [hvp.1, hvp.2]); rw [hvp.1] at hpc; exact hne hpc
      rw [storedBy_event_of_ne _ hother, List.append_nil]
      refine ⟨hw, fun hcall => ?_⟩
      have hvp : v.p ≠ p := fun hvp => hother ⟨hvp, by rw [hcall, hvp]⟩
      rw [after_pc_of_ne hvp, hk hcall]
      cases e.wake <;> rfl
    · obtain ⟨hp, hk, ho⟩ := mem_event hv
      rw [hout] at ho
      obtain ⟨hpc, hw⟩ := hwrote w r ho
      rw [hp, hk, storedBy_event_self, ho, after_pc_self]
      refine ⟨?_, fun _ => hpc⟩
      show Wrote w r (_ ++ [])
      rwa [List.append_nil]

end CallsInv

theorem callsInv_step (hi : CallsInv s) (h : step s a = some s') : CallsInv s' := by
  cases a with
  | call p c => exact hi.call h
  | step p => exact hi.step h
  | kill p => exact hi.kill h

theorem pipealloc_callsInv (h : pipealloc s) : CallsInv s := by
  obtain ⟨data, killed, rfl⟩ := h; exact ⟨nofun, fun _ => trivial, nofun⟩

/-! ## Reads -/

/-- What has been taken is what has been returned, and then what the reader with the lock has copied. -/
def ReadsInv (s : State P) : Prop := taken s.hist = returned s.hist ++ s.lock.elim [] fun p => (s.pc p).inHand

theorem next_inHand (hx : x.Ok st) (h : next pi killed x = some e) :
    x.inHand ++ (e.out.bind Out.taken).toList = e.out.elim [] Out.returned ++ e.pc.inHand := by
  cases x with
  | rTest r =>
    cases h
    dsimp only
    split
    · rfl
    · exact (show r.got = [] from hx).symm
  | rLoop r =>
    simp only [next] at h
    split at h <;> cases h <;> simp [Pc.inHand, Out.taken, Out.returned]
  | _ =>
    simp only [next, reduceCtorEq] at h
    all_goals (try split at h) <;> cases h <;> simp [Pc.inHand, Out.returned, Out.taken]

theorem inHand_of_not_holds (h : x.holds = false) : x.inHand = [] := by
  cases x <;> first | rfl | cases h

theorem wake_inHand (c : Chan) (x : Pc) : (x.wake c).inHand = x.inHand := by
  cases x <;> simp only [Pc.wake] <;> split <;> rfl

theorem readsInv_step (hh : Holder s) (hi : CallsInv s) (hr : ReadsInv s) (h : step s a = some s') : ReadsInv s' := by
  have hheld : ∀ p, s.lock.elim [] (fun q => (s.pc q).inHand) = (s.pc p).inHand ∨ s.lock ≠ some p := fun p => by
    by_cases hl : s.lock = some p
    · rw [hl]; exact .inl rfl
    · exact .inr hl
  cases a with
  | call p c =>
    obtain ⟨hp, rfl⟩ := step_call h
    unfold ReadsInv at hr ⊢
    rw [hr]
    congr 1
    cases hl : s.lock with
    | none => rfl
    | some q =>
      have hqp : q ≠ p := fun hqp => by
        have := (hh q).2 hl; rw [hqp, hp] at this; cases this
      simp only [Option.elim_some, update_of_ne hqp]
  | kill p =>
    cases h
    unfold ReadsInv at hr ⊢
    rw [hr]
    congr 1
    cases hl : s.lock with
    | none => rfl
    | some q =>
      simp only [Option.elim_some]
      by_cases hqp : q = p
      · subst hqp; rw [update_self, Pc.stir, wake_inHand, wake_inHand]
      · rw [update_of_ne hqp]
  | step p =>
    obtain ⟨e, lock, he, hl, rfl⟩ := step_step h
    have hin := next_inHand (hi.now p) he
    -- before the step the lock is free, or the process has it
    have hbefore : s.lock.elim [] (fun q => (s.pc q).inHand) = (s.pc p).inHand := by
      rcases next_holds he with ⟨hlock, hx, -⟩ | ⟨-, hx, -⟩ | ⟨-, hx, -⟩
      · rw [hlock] at hl
        obtain ⟨hfree, -⟩ := Option.ite_none_right_eq_some.1 hl
        rw [hfree, inHand_of_not_holds hx]
        rfl
      · exact (hheld p).resolve_right (not_not.2 ((hh p).1 hx))
      · exact (hheld p).resolve_right (not_not.2 ((hh p).1 hx))
    have hafter : lock.elim [] (fun q => ((s.after p e lock).pc q).inHand) = e.pc.inHand := by
      rcases next_holds he with ⟨hlock, -, -⟩ | ⟨hlock, -, hy⟩ | ⟨hlock, hx, -⟩
      · rw [hlock] at hl; obtain ⟨-, ⟨⟩⟩ := Option.ite_none_right_eq_some.1 hl; simp
      · rw [hlock] at hl; cases hl; exact (inHand_of_not_holds hy).symm
      · rw [hlock] at hl
        cases hl
        rw [(hh p).1 hx]
        simp
    show taken (s.hist ++ s.event p e.out) = returned (s.hist ++ s.event p e.out) ++
      lock.elim [] fun q => ((s.after p e lock).pc q).inHand
    rw [hafter, taken_append, returned_append, taken_event, returned_event, show taken s.hist = _ from hr, hbefore,
      List.append_assoc, List.append_assoc, hin]

/-! ## Every run -/

/-- What holds in every state of a run. -/
structure PipeInv (s : State P) : Prop where
  holder : Holder s
  queue : Queue s
  calls : CallsInv s
  reads : ReadsInv s

theorem pipeInv_step (hi : PipeInv s) (h : step s a = some s') : PipeInv s' where
  holder := holder_step hi.holder h
  queue := queue_step hi.queue h
  calls := callsInv_step hi.calls h
  reads := readsInv_step hi.holder hi.calls hi.reads h

theorem pipealloc_pipeInv (h : pipealloc s) : PipeInv s where
  holder := pipealloc_holder h
  queue := pipealloc_queue h
  calls := pipealloc_callsInv h
  reads := by
    obtain ⟨data, killed, rfl⟩ := h; rfl

theorem reach_pipeInv {ok : State P → Act P → Prop} (h : Reach pipealloc step ok s) : PipeInv s :=
  h.inv (fun _ => pipealloc_pipeInv) fun _ _ _ hi _ => pipeInv_step hi

/-- The call of `pipewrite` a process is in. -/
def Pc.writing : Pc → Option Write
  | .wEnter w | .wLoop w | .wTest w | .wFull w | .wWake w | .wSleep w | .wAsleep w | .wBack w | .wDone w | .wLeave w =>
    some w
  | _ => none

theorem Pc.Ok.isPrefix {w : Write} (hx : x.Ok st) (h : x.writing = some w) : st <+: w.data := by
  cases x <;> cases h
  case wEnter =>
    rw [hx.2]; exact List.nil_prefix
  case wDone | wLeave =>
    have hst : st = w.data := hx; exact hst ▸ List.prefix_rfl
  all_goals
    rw [hx.2]; exact List.take_prefix _ _

/-- A pipe is a lossless queue, whoever calls what with which lengths, and whoever is killed. -/
theorem pipe_fifo {s : State P} (h : Reachable pipealloc step s) :
    returned s.hist <+: stored s.hist ∧
      (∀ e ∈ s.hist, ∀ w r, e.out = .wrote w r →
        storedBy e.p e.call s.hist <+: w.data ∧ (r = w.n → storedBy e.p e.call s.hist = w.data)) ∧
      (∀ p w, (s.pc p).writing = some w → storedBy p (s.calls p) s.hist <+: w.data) ∧
      (s.pipe.nwrite - s.pipe.nread).toNat ≤ PIPESIZE := by
  have hi := reach_pipeInv h
  refine ⟨?_, fun e he w r hout => (hi.calls.done e he w r hout).1, fun p w hw => (hi.calls.now p).isPrefix hw, ?_⟩
  · have htaken : returned s.hist <+: taken s.hist := ⟨_, Eq.symm hi.reads⟩
    exact htaken.trans (Fifo.isPrefix hi.queue)
  · have hroom := Fifo.room hi.queue; rw [hi.queue.diff]; omega

/-- Process `false` writes two bytes, and process `true` reads one of them. -/
def writeRead : List (Act Bool) :=
  [.call false (.write (fun i => UInt8.ofNat (65 + i)) 2)] ++ List.replicate 8 (.step false) ++
    [.call true (.read 1)] ++ List.replicate 6 (.step true)

theorem pipe_fifo_read :
    ∃ s : State Bool, Reachable pipealloc step s ∧ returned s.hist = [65] ∧ stored s.hist = [65, 66] ∧
    returned s.hist <+: stored s.hist := by
  have hrun : (runActs step ({ pipe := { data := fun _ => 0 } } : State Bool) writeRead).any
      (fun s => decide (returned s.hist = [65] ∧ stored s.hist = [65, 66])) = true := by decide +kernel
  obtain ⟨s, hr, hs⟩ := exists_reachable_of_run pipealloc ⟨_, _, rfl⟩ _ _ hrun
  obtain ⟨h1, h2⟩ := of_decide_eq_true hs
  exact ⟨s, hr, h1, h2, (pipe_fifo hr).1⟩

end Xv6.Ipc
