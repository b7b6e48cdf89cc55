/-
A commit contains only whole operations. Here `commit` is taken step by step, without `log.lock`, as
`log.c` has it, with the array `lh.block` and the loop of `log_write` over it, and the panics are
states. The system of `Wal.Reserve`, where a commit is one step and `lh.block` a list, simulates it
(`logState_simulated`), so its `Whole` says what a commit finds.
-/
import Xv6.Wal.Reserve

namespace Xv6.Wal

open Base Fs Function

variable {N : Nat}

/-! ## The code -/

inductive CommitPc
  | start
  | writeLog (tail : Nat)
  | writeHead
  | install (tail : Nat)
  | clear
  | erase
  | done
  deriving DecidableEq, Repr

/-- Where a process is in the log: `begin` is `begin_op` before its test, `asleep` its `sleep`, and
`logging` is `log_write` before it has `log.lock`. -/
inductive LogPc
  | out
  | begin
  | asleep
  | op
  | logging (b : BlockNo)
  | commit (c : CommitPc)
  deriving DecidableEq, Repr

/-- The log, the header on the disk, and the processes. `since` are the blocks logged since the last
commit. -/
structure LogState (N : Nat) where
  log : Fs.Log
  block : Nat → BlockNo
  head : List BlockNo
  pc : Fin N → LogPc
  since : List BlockNo
  panic : Option String := none

/-- `lh.block[0..n)`. -/
def LogState.blocks (s : LogState N) : List BlockNo := (List.range s.log.n).map s.block

/-- The loop of `log_write`: the first index below `n` that holds `b`, or `n`. -/
def absorbAt (block : Nat → BlockNo) (n : Nat) (b : BlockNo) : Nat := ((List.range n).find? fun i => block i = b).getD n

/-- `wakeup(&log)`. -/
def LogPc.wake : LogPc → LogPc
  | .asleep => .begin
  | x => x

namespace LogState

def goto (s : LogState N) (p : Fin N) (x : LogPc) : LogState N := { s with pc := update s.pc p x }

def wakeup (s : LogState N) : LogState N := { s with pc := fun q => (s.pc q).wake }

/-- `log_write` under `log.lock`. -/
def append (s : LogState N) (b : BlockNo) : LogState N :=
  let i := absorbAt s.block s.log.n b
  { s with
    block := update s.block i b
    log := { s.log with n := if i = s.log.n then s.log.n + 1 else s.log.n }
    since := s.since ++ [b] }

end LogState

def commitStep (s : LogState N) (p : Fin N) : CommitPc → LogState N
  | .start => s.goto p (.commit (if s.log.n > 0 then .writeLog 0 else .done))
  | .writeLog tail => s.goto p (.commit (if tail < s.log.n then .writeLog (tail + 1) else .writeHead))
  | .writeHead => { s with head := s.blocks }.goto p (.commit (.install 0))
  | .install tail => s.goto p (.commit (if tail < s.log.n then .install (tail + 1) else .clear))
  | .clear => { s with log := { s.log with n := 0 }, since := [] }.goto p (.commit .erase)
  | .erase => { s with head := s.blocks }.goto p (.commit .done)
  | .done => ({ s with log := { s.log with committing := false } }.wakeup).goto p .out

/-- A process calls `begin_op`, calls `log_write` and makes its checks, calls `end_op`, or goes on. -/
inductive LogAct (N : Nat)
  | begin (p : Fin N)
  | logWrite (p : Fin N) (b : BlockNo)
  | endOp (p : Fin N)
  | run (p : Fin N)
  deriving DecidableEq, Repr

def logStep (s : LogState N) (a : LogAct N) : Option (LogState N) :=
  if s.panic ≠ none then none
  else
    match a with
    | .begin p => if s.pc p = .out then some (s.goto p .begin) else none
    | .logWrite p b =>
      if s.pc p = .op then
        match logWriteCheck s.log with
        | .ok _ => some (s.goto p (.logging b))
        | .error e => some { s with panic := some e }
      else none
    | .endOp p =>
      if s.pc p = .op then
        if s.log.committing = true then some { s with panic := some "log.committing" }
        else if s.log.outstanding - 1 = 0 then
          some ({ s with log := { s.log with outstanding := s.log.outstanding - 1, committing := true } }.goto p
            (.commit .start))
        else some (({ s with log := { s.log with outstanding := s.log.outstanding - 1 } }.wakeup).goto p .out)
      else none
    | .run p =>
      match s.pc p with
      | .begin =>
        if s.log.committing = true then some (s.goto p .asleep)
        else if s.log.n + (s.log.outstanding + 1) * MAXOPBLOCKS > LOGSIZE then some (s.goto p .asleep)
        else some ({ s with log := { s.log with outstanding := s.log.outstanding + 1 } }.goto p .op)
      | .logging b => some ((s.append b).goto p .op)
      | .commit c => some (commitStep s p c)
      | .out | .asleep | .op => none

/-- After `initlog`, with an empty log; what `lh.block` holds behind `n` does not matter. -/
def initlog (s : LogState N) : Prop :=
  ∃ block, s = { log := { size := nlog }, block := block, head := [], pc := fun _ => .out, since := [] }

/-! ## The loop of log_write -/

variable {s : LogState N}

section

variable {b : BlockNo}

theorem mem_blocks : b ∈ s.blocks ↔ ∃ i < s.log.n, s.block i = b := by
  simp [LogState.blocks]

theorem absorbAt_of_mem (h : b ∈ s.blocks) :
    absorbAt s.block s.log.n b < s.log.n ∧ s.block (absorbAt s.block s.log.n b) = b := by
  obtain ⟨i, hi, hb⟩ := mem_blocks.1 h
  have hsome : ((List.range s.log.n).find? fun i => s.block i = b).isSome := by
    rw [List.find?_isSome]; exact ⟨i, List.mem_range.2 hi, by simpa using hb⟩
  obtain ⟨j, hj⟩ := Option.isSome_iff_exists.1 hsome
  unfold absorbAt
  rw [hj]
  exact ⟨List.mem_range.1 (List.mem_of_find?_eq_some hj), by simpa using List.find?_some hj⟩

theorem absorbAt_of_notMem (h : b ∉ s.blocks) : absorbAt s.block s.log.n b = s.log.n := by
  have hnone : ((List.range s.log.n).find? fun i => s.block i = b) = none := by
    rw [List.find?_eq_none]
    intro i hi hb
    exact h (mem_blocks.2 ⟨i, List.mem_range.1 hi, by simpa using hb⟩)
  unfold absorbAt
  rw [hnone]
  rfl

theorem append_of_mem (h : b ∈ s.blocks) : (s.append b).log = s.log ∧ (s.append b).blocks = s.blocks := by
  obtain ⟨hlt, hb⟩ := absorbAt_of_mem h
  have hlog : (s.append b).log = s.log := by
    simp [LogState.append, ne_of_lt hlt]
  have hblock : (s.append b).block = s.block := by
    show update s.block (absorbAt s.block s.log.n b) b = s.block; rw [update_eq_self_iff, hb]
  exact ⟨hlog, by rw [LogState.blocks, hlog, hblock]; rfl⟩

theorem append_of_notMem (h : b ∉ s.blocks) :
    (s.append b).log = { s.log with n := s.log.n + 1 } ∧ (s.append b).blocks = s.blocks ++ [b] := by
  have hat := absorbAt_of_notMem h
  have hlog : (s.append b).log = { s.log with n := s.log.n + 1 } := by
    simp [LogState.append, hat]
  refine ⟨hlog, ?_⟩
  have hblock : (s.append b).block = update s.block s.log.n b := by
    show update s.block (absorbAt s.block s.log.n b) b = _; rw [hat]
  rw [LogState.blocks, hlog, hblock, List.range_succ, List.map_append, List.map_singleton, update_self]
  congr 1
  refine List.map_congr_left fun i hi => ?_
  exact update_of_ne (ne_of_lt (List.mem_range.1 hi)) ..

end

/-! ## Simulation -/

/-- The point of a process in the system with commits of one step; the step is the one that sets `n`
to 0. -/
def LogPc.abs : LogPc → OpPc
  | .out | .begin | .asleep => .out
  | .op => .op
  | .logging b => .logging b
  | .commit .erase | .commit .done => .committed
  | .commit _ => .commit

structure Sim (s : LogState N) (o : Ops N) : Prop where
  log : o.log = s.log
  block : o.block = s.blocks
  pc : ∀ p, o.pc p = (s.pc p).abs
  since : o.since = s.since
  panic : s.panic = none ∨ s.panic = some "too big a transaction"

namespace Sim

variable {o : Ops N} {p : Fin N}

theorem goto (h : Sim s o) {x : LogPc} (hx : x.abs = (s.pc p).abs) : Sim (s.goto p x) o := by
  refine ⟨h.log, h.block, fun q => ?_, h.since, h.panic⟩
  rw [h.pc q]
  unfold LogState.goto
  by_cases hq : q = p
  · rw [hq]; simp only [update_self, hx]
  · simp only [update_of_ne hq]

theorem wake_abs (x : LogPc) : x.wake.abs = x.abs := by cases x <;> rfl

theorem step {t : LogState N} {o' : Ops N} {x : LogPc} {y : OpPc} (h : Sim s o)
    (hpc : ∀ q, (t.pc q).abs = (s.pc q).abs) (hlog : o'.log = t.log) (hblock : o'.block = t.blocks)
    (hsince : o'.since = t.since) (hpanic : t.panic = s.panic) (hopc : o'.pc = update o.pc p y) (hxy : x.abs = y) :
    Sim (t.goto p x) o' := by
  refine ⟨hlog, hblock, fun q => ?_, hsince, hpanic ▸ h.panic⟩
  rw [hopc]
  unfold LogState.goto
  by_cases hq : q = p
  · rw [hq]; simp only [update_self, hxy]
  · simp only [update_of_ne hq]; rw [h.pc q, hpc q]

/-- What a step of one system is in the other. -/
abbrev Next (s' : LogState N) (o : Ops N) : Prop := Sim s' o ∨ ∃ b o', True ∧ opStep o b = some o' ∧ Sim s' o'

theorem setHead (h : Sim s o) (head : List BlockNo) : Sim { s with head := head } o :=
  ⟨h.log, h.block, h.pc, h.since, h.panic⟩

theorem commitStep (h : Sim s o) (hw : Whole o) {c : CommitPc} (hp : s.pc p = .commit c) :
    Next (commitStep s p c) o := by
  have hpc := h.pc p
  rw [hp] at hpc
  cases c with
  | start =>
    by_cases hn : s.log.n > 0
    · refine .inl (h.goto ?_)
      rw [hp, if_pos hn]
      rfl
    · -- an empty log is committed at once
      have hn0 : s.log.n = 0 := by omega
      have hblocks : s.blocks = [] := by simp [LogState.blocks, hn0]
      have hsince : s.since = [] := by
        rw [← h.since, List.eq_nil_iff_forall_not_mem]
        intro b hb
        rw [← hw.since b, h.block, hblocks] at hb
        cases hb
      refine .inr ⟨.commit p, _, trivial, if_pos hpc, ?_⟩
      unfold Wal.commitStep
      rw [if_neg hn]
      refine h.step (fun _ => rfl) ?_ hblocks.symm hsince.symm rfl rfl rfl
      show { o.log with n := 0 } = s.log
      rw [h.log, ← hn0]
  | writeLog tail | install tail =>
    refine .inl (h.goto ?_)
    rw [hp]
    split <;> rfl
  | writeHead | erase =>
    exact .inl ((h.setHead s.blocks).goto (p := p) (by rw [show (LogState.pc _ p) = _ from hp]; rfl))
  | clear =>
    refine .inr ⟨.commit p, _, trivial, if_pos hpc, h.step (t := { s with log := { s.log with n := 0 }, since := [] })
      (fun _ => rfl) ?_ rfl rfl rfl rfl rfl⟩
    rw [h.log]
  | done =>
    refine .inr ⟨.finish p, _, trivial, if_pos hpc, h.step (fun q => wake_abs _) ?_ h.block h.since rfl rfl rfl⟩
    rw [h.log]
    rfl

theorem next (h : Sim s o) (hw : Whole o) {s' : LogState N} {a : LogAct N} (hs : logStep s a = some s') :
    Next s' o := by
  unfold logStep at hs
  split at hs
  · cases hs
  · rename_i hnone
    have hnone : s.panic = none := by simpa using hnone
    cases a with
    | begin p =>
      obtain ⟨hp, ⟨⟩⟩ := Option.ite_none_right_eq_some.1 hs
      exact .inl (h.goto (by rw [hp]; rfl))
    | logWrite p b =>
      obtain ⟨hp, hs⟩ := Option.ite_none_right_eq_some.1 hs
      have hpc : o.pc p = .op := by rw [h.pc p, hp]; rfl
      have hpos : 1 ≤ s.log.outstanding := h.log ▸ hw.outstanding_pos (p := p) (by rw [hpc]; rfl)
      split at hs
      · rename_i hcheck
        cases hs
        refine .inr ⟨.logWrite p b, { o with pc := update o.pc p (.logging b) }, trivial, ?_,
          h.step (fun _ => rfl) h.log h.block h.since rfl rfl rfl⟩
        simp only [opStep, hpc, if_true, h.log, hcheck]
      · rename_i e hcheck
        cases hs
        refine .inl ⟨h.log, h.block, h.pc, h.since, .inr ?_⟩
        -- the other panic of `log_write` is out of reach inside an operation
        unfold logWriteCheck at hcheck
        split at hcheck
        · cases hcheck; rfl
        · rw [if_neg (by omega)] at hcheck; cases hcheck
    | endOp p =>
      obtain ⟨hp, hs⟩ := Option.ite_none_right_eq_some.1 hs
      have hpc : o.pc p = .op := by rw [h.pc p, hp]; rfl
      have hc : o.log.committing = false := hw.not_committing (p := p) (by rw [hpc]; rfl)
      rw [if_neg (by rw [← h.log, hc]; exact Bool.false_ne_true)] at hs
      split at hs
      · rename_i h0
        cases hs
        refine .inr ⟨.endOp p, { o with
          log := { o.log with outstanding := o.log.outstanding - 1, committing := true }
          pc := update o.pc p .commit }, trivial, ?_, h.step (fun _ => rfl) ?_ h.block h.since rfl rfl rfl⟩
        · rw [← h.log] at h0; simp only [opStep, hpc, hc, and_self, if_true, h0]
        · dsimp only; rw [h.log]
      · rename_i h0
        cases hs
        refine .inr ⟨.endOp p, { o with
          log := { o.log with outstanding := o.log.outstanding - 1 }
          pc := update o.pc p .out }, trivial, ?_, h.step (fun q => wake_abs _) ?_ h.block h.since rfl rfl rfl⟩
        · rw [← h.log] at h0; simp only [opStep, hpc, hc, and_self, if_true, if_neg h0]
        · dsimp only; rw [h.log]; rfl
    | run p =>
      dsimp only at hs
      split at hs
      · rename_i hp
        have hpc : o.pc p = .out := by rw [h.pc p, hp]; rfl
        split at hs
        · cases hs; exact .inl (h.goto (by rw [hp]; rfl))
        · rename_i hc
          split at hs
          · cases hs; exact .inl (h.goto (by rw [hp]; rfl))
          · rename_i hroom
            cases hs
            have hadm : o.pc p = .out ∧ o.log.committing = false ∧
                o.log.n + (o.log.outstanding + 1) * MAXOPBLOCKS ≤ LOGSIZE := by
              rw [h.log]
              exact ⟨hpc, by simpa using hc, not_lt.1 hroom⟩
            refine .inr ⟨.beginOp p, _, trivial, if_pos hadm, h.step (fun _ => rfl) ?_ h.block h.since rfl rfl rfl⟩
            rw [h.log]
      · rename_i b hp
        cases hs
        have hpc : o.pc p = .logging b := by rw [h.pc p, hp]; rfl
        refine .inr ⟨.logAppend p, logAppend o p b, trivial, by simp only [opStep, hpc], ?_⟩
        have hstep : (logAppend o p b).log = (s.append b).log ∧ (logAppend o p b).block = (s.append b).blocks := by
          by_cases hm : b ∈ o.block
          · obtain ⟨h1, h2⟩ := append_of_mem (h.block ▸ hm)
            rw [h1, h2, ← h.log, ← h.block]
            exact ⟨if_pos hm, if_pos hm⟩
          · obtain ⟨h1, h2⟩ := append_of_notMem (h.block ▸ hm)
            rw [h1, h2, ← h.log, ← h.block]
            exact ⟨if_neg hm, if_neg hm⟩
        exact h.step (fun _ => rfl) hstep.1 hstep.2 (by rw [logAppend_since, h.since]; rfl) rfl rfl rfl
      · rename_i c hp; cases hs; exact h.commitStep hw hp
      · cases hs
      · cases hs
      · cases hs

end Sim

/-- Every run of the code is one of the system in which a commit is one step. -/
theorem logState_simulated (h : Reachable initlog logStep s) :
    ∃ o, Reachable (· = bootOps) opStep o ∧ Sim s o := by
  refine h.simulate Sim ?_ fun s a s' o ho hsim _ hs => hsim.next (whole_reach ho) hs
  rintro _ ⟨block, rfl⟩
  exact ⟨bootOps, rfl, rfl, rfl, fun _ => rfl, rfl, .inl rfl⟩

/-! ## Every run of the code -/

def LogPc.inOp : LogPc → Bool
  | .op | .logging _ => true
  | _ => false

def LogPc.inCommit : LogPc → Bool
  | .commit _ => true
  | _ => false

theorem abs_inCommit (x : LogPc) : x.abs.inCommit = x.inCommit := by
  cases x with
  | commit c => cases c <;> rfl
  | _ => rfl

theorem abs_inOp (x : LogPc) : x.abs.inOp = x.inOp := by
  cases x with
  | commit c => cases c <;> rfl
  | _ => rfl

/-- A step in which `begin_op` returns. -/
def Begins (s s' : LogState N) : LogAct N → Prop
  | .run p => s.pc p = .begin ∧ s'.pc p = .op
  | _ => False

/-- A step of `log_write`, its checks or its append. -/
def Logs (s : LogState N) : LogAct N → Prop
  | .logWrite _ _ => True
  | .run p => ∃ b, s.pc p = .logging b
  | _ => False

/-- A commit contains only whole operations. -/
theorem commit_whole {s : LogState N} (h : Reachable initlog logStep s) :
    (∀ p, (s.pc p).inCommit = true → s.log.outstanding = 0 ∧ ∀ q, (s.pc q).inOp = false) ∧
      (∀ a s', logStep s a = some s' → s.log.committing = true → ¬ Begins s s' a ∧ ¬ Logs s a) ∧
      s.panic ≠ some "log.committing" ∧ s.blocks.Nodup ∧
      ∀ p, s.pc p = .commit .start → ∀ b ∈ s.since, b ∈ s.blocks := by
  obtain ⟨o, ho, hsim⟩ := logState_simulated h
  have hw := whole_reach ho
  have hbusy : ∀ p, (s.pc p).inCommit = true → s.log.outstanding = 0 := fun p hp => by
    rw [← hsim.log]; exact (hw.busy p (by rw [hsim.pc p, abs_inCommit]; exact hp)).2
  have hop : ∀ p, (s.pc p).inOp = true → 1 ≤ s.log.outstanding ∧ s.log.committing = false := fun p hp => by
    have hin : (o.pc p).inOp = true := by rw [hsim.pc p, abs_inOp]; exact hp
    rw [← hsim.log]
    exact ⟨hw.outstanding_pos hin, hw.not_committing hin⟩
  refine ⟨fun p hp => ⟨hbusy p hp, fun q => ?_⟩, fun a s' hs hc => ⟨?_, ?_⟩, ?_, ?_, fun p _ b hb => ?_⟩
  · by_contra hq
    have := hbusy p hp
    have := (hop q (by simpa using hq)).1
    omega
  · cases a with
    | begin p | logWrite p b | endOp p => exact fun hb => hb
    | run p =>
      rintro ⟨hp, hp'⟩
      unfold logStep at hs
      split at hs
      · cases hs
      · simp only [hp, Option.some.injEq] at hs
        rw [← hs] at hp'
        simp [LogState.goto] at hp'
  · cases a with
    | begin p | endOp p => exact fun hl => hl
    | logWrite p b =>
      intro _
      unfold logStep at hs
      split at hs
      · cases hs
      · obtain ⟨hq, -⟩ := Option.ite_none_right_eq_some.1 hs
        have := (hop p (by rw [hq]; rfl)).2
        rw [hc] at this
        cases this
    | run p =>
      rintro ⟨b, hb⟩
      have := (hop p (by rw [hb]; rfl)).2
      rw [hc] at this
      cases this
  · rcases hsim.panic with hp | hp <;> rw [hp] <;> simp
  · rw [← hsim.block]; exact hw.nodup
  · rw [← hsim.block, hw.since, hsim.since]; exact hb

/-- Two operations log a block each, and one of them a second time; the one that ends last commits. -/
def twoOps (p q : Fin N) : List (LogAct N) :=
  [.begin p, .run p, .begin q, .run q, .logWrite p 40, .run p, .logWrite q 41, .run q, .logWrite p 40, .run p, .endOp p,
    .endOp q]

theorem commit_whole_two : ∃ s : LogState 2, Reachable initlog logStep s ∧ s.pc 1 = .commit .start ∧
    s.since = [40, 41, 40] ∧ s.log.outstanding = 0 ∧ ∀ b ∈ s.since, b ∈ s.blocks := by
  have hrun : (runActs logStep
      ({ log := { size := nlog }, block := fun _ => 0, head := [], pc := fun _ => .out, since := [] } : LogState 2)
      (twoOps 0 1)).any (fun s => decide (s.pc 1 = .commit .start ∧ s.since = [40, 41, 40])) = true := by
    decide +kernel
  obtain ⟨s, hr, hs⟩ := exists_reachable_of_run initlog ⟨_, rfl⟩ _ _ hrun
  obtain ⟨hp, hsince⟩ := of_decide_eq_true hs
  have hw := commit_whole hr
  exact ⟨s, hr, hp, hsince, (hw.1 1 (by rw [hp]; rfl)).1, hw.2.2.2.2 1 hp⟩

end Xv6.Wal
