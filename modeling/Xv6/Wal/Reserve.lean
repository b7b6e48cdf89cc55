/-
The reservations of `log.c`. `begin_op` admits an operation when the blocks logged so far and
`MAXOPBLOCKS` for every operation under way fit in `LOGSIZE`; `log_write` panics when the log is
full, and it takes one block of `log.size` for the header. `mkfs` makes `log.size` equal to
`LOGSIZE`, so there is one block less than `begin_op` counts on.

In every run, whatever the operations log, a commit is under way exactly while `log.committing` is
set, by one process and while no operation is, and the blocks in the log are those logged since the
last commit, each once (`Whole`). The reservations are `Budget B`: where no operation logs more than
`B` distinct blocks, the blocks logged and what the operations under way may still log stay within
`MAXOPBLOCKS + 2 * B`. That is all 30 blocks for `B = MAXOPBLOCKS`, and one below the limit of 29 for
one block less.
-/
import Xv6.Fs.Inv
import Xv6.Wal.Crash

namespace Xv6.Wal

open Base Fs Function

variable {N : Nat} {p : Fin N} {b : BlockNo} {B : Nat}

/-! ## The log in memory -/

/-- Where a process is in the log: `logging` is `log_write` before it has `log.lock`, `commit` is the
call of `commit` at the end of `end_op`. A process that sleeps in `begin_op` is `out`. -/
inductive OpPc
  | out
  | op
  | logging (b : BlockNo)
  | commit
  | committed
  deriving DecidableEq, Repr

/-- Between `begin_op` and `end_op`. -/
def OpPc.inOp : OpPc → Bool
  | .op | .logging _ => true
  | _ => false

def OpPc.inCommit : OpPc → Bool
  | .commit | .committed => true
  | _ => false

/-- The log and its processes; `block` is `lh.block` up to `lh.n`. `wrote` are the distinct blocks the
operation of a process has logged, and `since` all those logged since the last commit. -/
structure Ops (N : Nat) where
  log : Fs.Log
  block : List BlockNo
  pc : Fin N → OpPc
  wrote : Fin N → List BlockNo
  since : List BlockNo

def bootOps : Ops N :=
  { log := { size := nlog }, block := [], pc := fun _ => .out, wrote := fun _ => [], since := [] }

/-- The checks of `log_write`, made without `log.lock`; an error is a panic. -/
def logWriteCheck (log : Fs.Log) : Except String Unit :=
  if log.n ≥ LOGSIZE ∨ log.n ≥ log.size - 1 then .error "too big a transaction"
  else if log.outstanding < 1 then .error "log_write outside of trans"
  else .ok ()

/-- The rest of `log_write`, with absorption. -/
def logAppend (s : Ops N) (p : Fin N) (b : BlockNo) : Ops N :=
  { s with
    log := if b ∈ s.block then s.log else { s.log with n := s.log.n + 1 }
    block := if b ∈ s.block then s.block else s.block ++ [b]
    pc := update s.pc p .op
    wrote := update s.wrote p (if b ∈ s.wrote p then s.wrote p else s.wrote p ++ [b])
    since := s.since ++ [b] }

inductive OpAct (N : Nat)
  | beginOp (p : Fin N)
  | logWrite (p : Fin N) (b : BlockNo)
  | logAppend (p : Fin N)
  | endOp (p : Fin N)
  | commit (p : Fin N)
  | finish (p : Fin N)
  deriving DecidableEq, Repr

/-- One step: what a process does under `log.lock`, the checks of `log_write`, or a whole `commit`. A
process that `begin_op` does not admit sleeps and tests again. -/
def opStep (s : Ops N) : OpAct N → Option (Ops N)
  | .beginOp p =>
    if s.pc p = .out ∧ s.log.committing = false ∧ s.log.n + (s.log.outstanding + 1) * MAXOPBLOCKS ≤ LOGSIZE then
      some { s with
        log := { s.log with outstanding := s.log.outstanding + 1 }
        pc := update s.pc p .op
        wrote := update s.wrote p [] }
    else none
  | .logWrite p b =>
    if s.pc p = .op then
      match logWriteCheck s.log with
      | .ok _ => some { s with pc := update s.pc p (.logging b) }
      | .error _ => none
    else none
  | .logAppend p =>
    match s.pc p with
    | .logging b => some (logAppend s p b)
    | _ => none
  | .endOp p =>
    if s.pc p = .op ∧ s.log.committing = false then  -- or panic("log.committing")
      if s.log.outstanding - 1 = 0 then
        some { s with
          log := { s.log with outstanding := s.log.outstanding - 1, committing := true }
          pc := update s.pc p .commit }
      else
        some { s with
          log := { s.log with outstanding := s.log.outstanding - 1 }
          pc := update s.pc p .out }
    else none
  | .commit p =>
    if s.pc p = .commit then
      some { s with log := { s.log with n := 0 }, block := [], pc := update s.pc p .committed, since := [] }
    else none
  | .finish p =>
    if s.pc p = .committed then
      some { s with log := { s.log with committing := false }, pc := update s.pc p .out }
    else none

/-- No operation logs more than `B` distinct blocks. -/
def Within (B : Nat) (s : Ops N) : OpAct N → Prop
  | .logWrite p b => b ∈ s.wrote p ∨ (s.wrote p).length < B
  | _ => True

instance (B : Nat) (s : Ops N) : (a : OpAct N) → Decidable (Within B s a)
  | .logWrite p b => inferInstanceAs (Decidable (b ∈ s.wrote p ∨ (s.wrote p).length < B))
  | .beginOp _ | .logAppend _ | .endOp _ | .commit _ | .finish _ => inferInstanceAs (Decidable True)

/-! ## Whole operations -/

/-- What holds in every run, whatever the operations log. -/
structure Whole (o : Ops N) : Prop where
  counts : LogInv (fun p => (o.pc p).inOp) o.log
  busy : ∀ p, (o.pc p).inCommit = true → o.log.committing = true ∧ o.log.outstanding = 0
  runs : o.log.committing = true → ∃ p, (o.pc p).inCommit = true
  one : ∀ p q, (o.pc p).inCommit = true → (o.pc q).inCommit = true → p = q
  erased : ∀ p, o.pc p = .committed → o.log.n = 0
  n : o.log.n = o.block.length
  nodup : o.block.Nodup
  since : ∀ b, b ∈ o.block ↔ b ∈ o.since

variable {s : Ops N}

theorem logAppend_since : (logAppend s p b).since = s.since ++ [b] := rfl

variable {o : Ops N} {x : OpPc}

namespace Whole

variable {o' : Ops N}

theorem boot : Whole (bootOps (N := N)) where
  counts := ⟨by simp [bootOps, OpPc.inOp], fun _ _ => rfl⟩
  busy := by simp [bootOps, OpPc.inCommit]
  runs := nofun
  one := by simp [bootOps, OpPc.inCommit]
  erased := nofun
  n := rfl
  nodup := List.nodup_nil
  since := fun _ => Iff.rfl

theorem outstanding_pos (h : Whole o) (hp : (o.pc p).inOp = true) : 1 ≤ o.log.outstanding := by
  rw [h.counts.out, Nat.one_le_iff_ne_zero, Finset.card_ne_zero]; exact ⟨p, by simp [hp]⟩

theorem not_committing (h : Whole o) (hp : (o.pc p).inOp = true) : o.log.committing = false := by
  by_contra hc
  obtain ⟨q, hq⟩ := h.runs (by simpa using hc)
  have := h.outstanding_pos hp
  have := (h.busy q hq).2
  omega

theorem not_inCommit (h : Whole o) (hc : o.log.committing = false) (q : Fin N) : (o.pc q).inCommit = false := by
  by_contra hq
  rw [(h.busy q (by simpa using hq)).1] at hc
  cases hc

theorem inOp_update (pc : Fin N → OpPc) (p : Fin N) (x : OpPc) :
    (fun q => (update pc p x q).inOp) = update (fun q => (pc q).inOp) p x.inOp :=
  comp_update OpPc.inOp pc p x

theorem update_inOp (hx : x.inOp = (o.pc p).inOp) :
    update (fun q => (o.pc q).inOp) p x.inOp = fun q => (o.pc q).inOp := by
  rw [update_eq_self_iff, hx]

section

variable (h : Whole o)

include h

/-- A step of a process that is not in a commit before or after it, while none is under way. -/
theorem quiet (hc : o.log.committing = false) {x : OpPc} (hx : x.inCommit = false) (hpc : o'.pc = update o.pc p x)
    (hcounts : LogInv (update (fun q => (o.pc q).inOp) p x.inOp) o'.log) (hc' : o'.log.committing = false)
    (hn : o'.log.n = o'.block.length) (hnodup : o'.block.Nodup) (hsince : ∀ b, b ∈ o'.block ↔ b ∈ o'.since) :
    Whole o' := by
  have hno : ∀ q, (o'.pc q).inCommit = false := fun q => by
    rw [hpc]
    by_cases hq : q = p
    · rw [hq, update_self, hx]
    · rw [update_of_ne hq, h.not_inCommit hc q]
  refine ⟨?_, fun q hq => ?_, fun h' => ?_, fun q r hq => ?_, fun q hq => ?_, hn, hnodup, hsince⟩
  · rw [hpc, inOp_update]; exact hcounts
  · rw [hno q] at hq; cases hq
  · rw [hc'] at h'; cases h'
  · rw [hno q] at hq; cases hq
  · have := hno q; rw [hq] at this; cases this

theorem inCommit_update (hp : (o.pc p).inCommit = true) {x : OpPc} {q : Fin N}
    (hq : (update o.pc p x q).inCommit = true) : q = p := by
  by_contra hne
  rw [update_of_ne hne] at hq
  exact hne (h.one q p hq hp)

theorem beginOp (hs : opStep o (.beginOp p) = some o') : Whole o' := by
  simp only [opStep, Option.ite_none_right_eq_some, Option.some.injEq] at hs
  obtain ⟨⟨hp, hc, -⟩, rfl⟩ := hs
  refine h.quiet hc rfl rfl ?_ hc h.n h.nodup h.since
  exact h.counts.beginOp (by simp [hp, OpPc.inOp])

theorem logWrite (hs : opStep o (.logWrite p b) = some o') : Whole o' := by
  simp only [opStep] at hs
  split at hs
  · rename_i hp
    have hin : (o.pc p).inOp = true := by rw [hp]; rfl
    have hc := h.not_committing hin
    split at hs
    · cases hs
      refine h.quiet hc rfl rfl ?_ hc h.n h.nodup h.since
      rw [update_inOp (by rw [hp]; rfl)]
      exact h.counts
    · cases hs
  · cases hs

theorem logAppend (hs : opStep o (.logAppend p) = some o') : Whole o' := by
  simp only [opStep] at hs
  split at hs
  · rename_i b hp
    cases hs
    have hin : (o.pc p).inOp = true := by rw [hp]; rfl
    have hc := h.not_committing hin
    have hop : (OpPc.op).inOp = (o.pc p).inOp := by rw [hin]; rfl
    by_cases hm : b ∈ o.block
    · have hlog : (Wal.logAppend o p b).log = o.log := if_pos hm
      have hblock : (Wal.logAppend o p b).block = o.block := if_pos hm
      refine h.quiet hc rfl rfl ?_ (by rw [hlog, hc]) (by rw [hlog, hblock, h.n])
        (by rw [hblock]; exact h.nodup) fun x => ?_
      · rw [hlog, update_inOp hop]; exact h.counts
      · rw [hblock, logAppend_since, List.mem_append, List.mem_singleton, ← h.since x]
        exact ⟨.inl, fun hx => hx.elim id (· ▸ hm)⟩
    · have hlog : (Wal.logAppend o p b).log = { o.log with n := o.log.n + 1 } := if_neg hm
      have hblock : (Wal.logAppend o p b).block = o.block ++ [b] := if_neg hm
      refine h.quiet hc rfl rfl ?_ (by rw [hlog]; exact hc) ?_ ?_ fun x => ?_
      · rw [hlog, update_inOp hop]; exact h.counts.write (h.outstanding_pos hin) 1
      · rw [hlog, hblock, List.length_append, ← h.n]; rfl
      · rw [hblock]
        refine List.nodup_append.2 ⟨h.nodup, List.nodup_singleton b, fun x hx y hy => ?_⟩
        rw [List.mem_singleton.1 hy]
        exact ne_of_mem_of_not_mem hx hm
      · rw [hblock, logAppend_since, List.mem_append, List.mem_append, h.since x]
  · cases hs

theorem endOp (hs : opStep o (.endOp p) = some o') : Whole o' := by
  simp only [opStep] at hs
  split at hs
  · rename_i hcond
    obtain ⟨hp, hc⟩ := hcond
    have hin : (o.pc p).inOp = true := by rw [hp]; rfl
    split at hs
    · rename_i h0
      cases hs
      -- the last operation begins the commit
      have honly : ∀ q, (update o.pc p .commit q).inCommit = true → q = p := fun q hq => by
        by_contra hne
        rw [update_of_ne hne, h.not_inCommit hc q] at hq
        cases hq
      refine ⟨?_, fun _ _ => ⟨rfl, h0⟩, fun _ => ⟨p, by simp [OpPc.inCommit]⟩, fun q r hq hr => ?_, fun q hq => ?_, h.n,
        h.nodup, h.since⟩
      · rw [inOp_update]; exact h.counts.endOp hin true fun _ => rfl
      · rw [honly q hq, honly r hr]
      · have hqp := honly q (by simp only at hq; rw [hq]; rfl)
        simp only at hq
        rw [hqp, update_self] at hq
        cases hq
    · rename_i h0
      cases hs
      refine h.quiet hc rfl rfl ?_ hc h.n h.nodup h.since
      exact h.counts.endOp hin o.log.committing fun h => absurd h h0
  · cases hs

theorem commit (hs : opStep o (.commit p) = some o') : Whole o' := by
  simp only [opStep, Option.ite_none_right_eq_some, Option.some.injEq] at hs
  obtain ⟨hp, rfl⟩ := hs
  have hin : (o.pc p).inCommit = true := by rw [hp]; rfl
  refine ⟨?_, fun q hq => ?_, fun _ => ⟨p, by simp [OpPc.inCommit]⟩, fun q r hq hr => ?_, fun _ _ => rfl, rfl,
    List.nodup_nil, fun _ => Iff.rfl⟩
  · rw [inOp_update, update_inOp (by rw [hp]; rfl)]; exact ⟨h.counts.out, fun _ _ => rfl⟩
  · exact h.busy p hin
  · rw [h.inCommit_update hin hq, h.inCommit_update hin hr]

theorem finish (hs : opStep o (.finish p) = some o') : Whole o' := by
  simp only [opStep, Option.ite_none_right_eq_some, Option.some.injEq] at hs
  obtain ⟨hp, rfl⟩ := hs
  have hin : (o.pc p).inCommit = true := by rw [hp]; rfl
  have hno : ∀ q, (update o.pc p .out q).inCommit = false := fun q => by
    by_contra hq
    have hqp := h.inCommit_update hin (by simpa using hq)
    rw [hqp, update_self] at hq
    exact hq rfl
  refine ⟨?_, fun q hq => ?_, (fun h => by cases h), fun q r hq => ?_, fun q hq => ?_, h.n, h.nodup, h.since⟩
  · rw [inOp_update, update_inOp (by rw [hp]; rfl)]
    exact ⟨h.counts.out, fun _ _ => h.erased p hp⟩
  · rw [hno q] at hq; cases hq
  · rw [hno q] at hq; cases hq
  · have := hno q
    simp only at hq
    rw [hq] at this
    cases this

theorem step {a : OpAct N} (hs : opStep o a = some o') : Whole o' := by
  cases a with
  | beginOp p => exact h.beginOp hs
  | logWrite p b => exact h.logWrite hs
  | logAppend p => exact h.logAppend hs
  | endOp p => exact h.endOp hs
  | commit p => exact h.commit hs
  | finish p => exact h.finish hs

end

end Whole

theorem whole_reach (h : Reachable (· = bootOps) opStep o) : Whole o := by
  refine h.inv (P := Whole) ?_ fun _ _ _ hw _ hs => hw.step hs
  rintro _ rfl
  exact .boot

/-! ## The budget -/

/-- What the operation of `p` may still log. -/
def Ops.reserved (B : Nat) (s : Ops N) (p : Fin N) : Nat := if (s.pc p).inOp then B - (s.wrote p).length else 0

theorem Ops.reserved_inOp (hp : (s.pc p).inOp = true) :
    s.reserved B p = B - (s.wrote p).length :=
  if_pos hp

theorem Ops.reserved_out (hp : (s.pc p).inOp = false) : s.reserved B p = 0 :=
  if_neg (by rw [hp]; exact Bool.false_ne_true)

/-- The process at `pc`, with `wrote` logged by its operation. -/
structure OpInv (B : Nat) (block : List BlockNo) (pc : OpPc) (wrote : List BlockNo) : Prop where
  held : pc.inOp = true → ∀ b ∈ wrote, b ∈ block
  room : ∀ b, pc = .logging b → b ∈ wrote ∨ wrote.length < B

structure Budget (B : Nat) (s : Ops N) : Prop extends Whole s where
  size : s.log.size = nlog
  each : ∀ p, OpInv B s.block (s.pc p) (s.wrote p)
  fits : s.log.n + ∑ p, s.reserved B p ≤ MAXOPBLOCKS + 2 * B

section

variable {q : Fin N}

theorem logAppend_pc : (logAppend s p b).pc p = .op := update_self ..

theorem logAppend_wrote : (logAppend s p b).wrote p = if b ∈ s.wrote p then s.wrote p else s.wrote p ++ [b] :=
  update_self ..

theorem logAppend_other (e : q ≠ p) :
    (logAppend s p b).pc q = s.pc q ∧ (logAppend s p b).wrote q = s.wrote q :=
  ⟨update_of_ne e .., update_of_ne e ..⟩

theorem logAppend_reserved :
    (logAppend s p b).reserved B p = B - (if b ∈ s.wrote p then s.wrote p else s.wrote p ++ [b]).length := by
  rw [Ops.reserved_inOp (by rw [logAppend_pc]; rfl), logAppend_wrote]

end

variable {s' : Ops N}

namespace Budget

theorem boot : Budget B (bootOps (N := N)) where
  toWhole := Whole.boot
  size := rfl
  each := fun p => ⟨by simp [bootOps, OpPc.inOp], by simp [bootOps]⟩
  fits := by simp [bootOps, Ops.reserved, OpPc.inOp]

/-- A step of process `p`: its own part, the blocks that the others logged, and the reservations it changes. -/
theorem move (h : Budget B s) (hw : Whole s') (hpc : s'.pc = update s.pc p x)
    (hwr : ∀ q, q ≠ p → s'.wrote q = s.wrote q) (hsize : s'.log.size = s.log.size)
    (hheld : x.inOp = true → ∀ b ∈ s'.wrote p, b ∈ s'.block)
    (hroom : ∀ b, x = .logging b → b ∈ s'.wrote p ∨ (s'.wrote p).length < B)
    (hblock : ∀ q, (s.pc q).inOp = true → ∀ b ∈ s.block, b ∈ s'.block)
    (hfits : s'.log.n + (∑ q, s.reserved B q) + s'.reserved B p ≤ MAXOPBLOCKS + 2 * B + s.reserved B p) :
    Budget B s' := by
  have hself : s'.pc p = x := by rw [hpc, update_self]
  have hother : ∀ q, q ≠ p → s'.pc q = s.pc q := fun q e => by rw [hpc, update_of_ne e]
  refine ⟨hw, hsize.trans h.size, fun q => ⟨fun hin => ?_, fun b hb => ?_⟩, ?_⟩
  · by_cases e : q = p
    · subst e; exact hheld (hself ▸ hin)
    · rw [hother q e] at hin
      rw [hwr q e]
      exact fun b hb => hblock q hin b ((h.each q).held hin b hb)
  · by_cases e : q = p
    · subst e; exact hroom b (hself.symm.trans hb)
    · rw [hwr q e]; exact (h.each q).room b ((hother q e).symm.trans hb)
  · have hsum := sum_update_add (s.reserved B) (s'.reserved B) p fun q hq => by
      simp only [Ops.reserved, hother q hq, hwr q hq]
    omega

theorem fits_of_le (h : Budget B s) (hn : s'.log.n ≤ s.log.n) (hr : s'.reserved B p ≤ s.reserved B p) :
    s'.log.n + (∑ q, s.reserved B q) + s'.reserved B p ≤ MAXOPBLOCKS + 2 * B + s.reserved B p := by
  have := h.fits
  omega

theorem leave (h : Budget B s) (hw : Whole s') (hpc : s'.pc = update s.pc p x) (hx : x.inOp = false)
    (hwr : s'.wrote = s.wrote) (hsize : s'.log.size = s.log.size) (hn : s'.log.n ≤ s.log.n)
    (hblock : ∀ q, (s.pc q).inOp = true → ∀ b ∈ s.block, b ∈ s'.block) : Budget B s' := by
  refine h.move hw hpc (fun q _ => congrFun hwr q) hsize (fun hin => ?_) (fun b hb => ?_) hblock (h.fits_of_le hn ?_)
  · rw [hx] at hin; cases hin
  · rw [hb] at hx; cases hx
  · rw [Ops.reserved_out (by rw [hpc, update_self, hx])]; exact zero_le

theorem sum_reserved_le (h : Budget B s) : ∑ p, s.reserved B p ≤ s.log.outstanding * B := by
  have hle : ∀ p, s.reserved B p ≤ if (s.pc p).inOp = true then B else 0 := by
    intro p
    unfold Ops.reserved
    split <;> omega
  calc ∑ p, s.reserved B p ≤ ∑ p, if (s.pc p).inOp = true then B else 0 := Finset.sum_le_sum fun p _ => hle p
    _ = s.log.outstanding * B := by rw [Finset.sum_ite, Finset.sum_const_zero, Finset.sum_const, h.counts.out]; simp

/-- `begin_op` finds an empty log or an operation under way, so it admits at most three. -/
theorem admitted (hB : B ≤ MAXOPBLOCKS) (h : Budget B s) (hc : s.log.committing = false)
    (hadm : s.log.n + (s.log.outstanding + 1) * MAXOPBLOCKS ≤ LOGSIZE) :
    s.log.n + (∑ q, s.reserved B q) + B ≤ MAXOPBLOCKS + 2 * B := by
  have hle := h.sum_reserved_le
  have hidle := h.counts.idle
  simp only [LOGSIZE, MAXOPBLOCKS] at hadm hB ⊢
  have hout : s.log.outstanding = 0 ∨ s.log.outstanding = 1 ∨ s.log.outstanding = 2 := by omega
  rcases hout with ho | ho | ho
  · have := hidle ho hc; rw [ho] at hle; omega
  · rw [ho] at hle hadm; omega
  · rw [ho] at hle hadm; omega

/-! ### Steps -/

theorem beginOp (hB : B ≤ MAXOPBLOCKS) (h : Budget B s) (hw : Whole s') (hs : opStep s (.beginOp p) = some s') :
    Budget B s' := by
  simp only [opStep, Option.ite_none_right_eq_some, Option.some.injEq] at hs
  obtain ⟨⟨-, hc, hadm⟩, rfl⟩ := hs
  refine h.move hw rfl (fun q e => update_of_ne e ..) rfl (fun _ => ?_) (by simp) (fun _ _ _ hb => hb) ?_
  · simp only [update_self]; simp
  · have hadm := h.admitted hB hc hadm
    rw [Ops.reserved_inOp (by simp [OpPc.inOp])]
    simp only [update_self, List.length_nil]
    omega

theorem logWrite (h : Budget B s) (hw : Whole s') (hok : Within B s (.logWrite p b))
    (hs : opStep s (.logWrite p b) = some s') :
    Budget B s' := by
  simp only [opStep] at hs
  split at hs
  · rename_i hp
    have hin : (s.pc p).inOp = true := by rw [hp]; rfl
    split at hs
    · cases hs
      refine h.move hw rfl (fun _ _ => rfl) rfl (fun _ => (h.each p).held hin) (fun b' e => ?_) (fun _ _ _ hb => hb)
        (h.fits_of_le le_rfl ?_)
      · cases e; exact hok
      · rw [Ops.reserved_inOp (by simp [OpPc.inOp]), Ops.reserved_inOp hin]
    · cases hs
  · cases hs

theorem append_fits (h : Budget B s) (hp : s.pc p = .logging b) :
    (Wal.logAppend s p b).log.n + (∑ q, s.reserved B q) + (Wal.logAppend s p b).reserved B p ≤
      MAXOPBLOCKS + 2 * B + s.reserved B p := by
  have hin : (s.pc p).inOp = true := by rw [hp]; rfl
  by_cases hm : b ∈ s.block
  · have hlog : (Wal.logAppend s p b).log = s.log := if_pos hm
    refine h.fits_of_le (by rw [hlog]) ?_
    rw [logAppend_reserved, Ops.reserved_inOp hin]
    split
    · exact le_rfl
    · rw [List.length_append]; omega
  · have hlog : (Wal.logAppend s p b).log = { s.log with n := s.log.n + 1 } := if_neg hm
    have hnew : b ∉ s.wrote p := fun hb => hm ((h.each p).held hin b hb)
    have hroom := ((h.each p).room b hp).resolve_left hnew
    have hfits := h.fits
    rw [hlog, logAppend_reserved, if_neg hnew, List.length_append, List.length_singleton, Ops.reserved_inOp hin]
    dsimp only
    omega

theorem logAppend (h : Budget B s) (hw : Whole s') (hs : opStep s (.logAppend p) = some s') : Budget B s' := by
  simp only [opStep] at hs
  split at hs
  · rename_i b hp
    cases hs
    have hgrow : ∀ y ∈ s.block, y ∈ (Wal.logAppend s p b).block := fun y hy =>
      (hw.since y).2 (List.mem_append_left _ ((h.since y).1 hy))
    refine h.move hw rfl (fun q e => (logAppend_other e).2) ?_ (fun _ y hy => ?_) (by simp)
      (fun _ _ => hgrow) (h.append_fits hp)
    · show (if b ∈ s.block then s.log else { s.log with n := s.log.n + 1 } : Fs.Log).size = _
      split <;> rfl
    · rw [logAppend_wrote] at hy
      have hold : y ∈ s.wrote p → y ∈ (Wal.logAppend s p b).block := fun hy =>
        hgrow y ((h.each p).held (by rw [hp]; rfl) y hy)
      split at hy
      · exact hold hy
      · rcases List.mem_append.1 hy with hy | hy
        · exact hold hy
        · exact (hw.since y).2 (List.mem_append_right _ hy)
  · cases hs

theorem endOp (h : Budget B s) (hw : Whole s') (hs : opStep s (.endOp p) = some s') : Budget B s' := by
  simp only [opStep] at hs
  split at hs
  · split at hs <;> cases hs <;> exact h.leave hw rfl rfl rfl rfl le_rfl fun _ _ _ hb => hb
  · cases hs

theorem commit (h : Budget B s) (hw : Whole s') (hs : opStep s (.commit p) = some s') : Budget B s' := by
  simp only [opStep, Option.ite_none_right_eq_some, Option.some.injEq] at hs
  obtain ⟨hp, rfl⟩ := hs
  have hbusy := h.busy p (by rw [hp]; rfl)
  refine h.leave hw rfl rfl rfl rfl zero_le fun q hq => ?_
  have := h.outstanding_pos hq
  omega

theorem finish (h : Budget B s) (hw : Whole s') (hs : opStep s (.finish p) = some s') : Budget B s' := by
  simp only [opStep, Option.ite_none_right_eq_some, Option.some.injEq] at hs
  obtain ⟨-, rfl⟩ := hs
  exact h.leave hw rfl rfl rfl rfl le_rfl fun _ _ _ hb => hb

end Budget

/-! ## Runs -/

theorem budget_step (hB : B ≤ MAXOPBLOCKS) (h : Budget B s) {a : OpAct N} (hok : Within B s a)
    (hs : opStep s a = some s') : Budget B s' := by
  have hw' := h.step hs
  cases a with
  | beginOp p => exact h.beginOp hB hw' hs
  | logWrite p b => exact h.logWrite hw' hok hs
  | logAppend p => exact h.logAppend hw' hs
  | endOp p => exact h.endOp hw' hs
  | commit p => exact h.commit hw' hs
  | finish p => exact h.finish hw' hs

theorem budget_reach (hB : B ≤ MAXOPBLOCKS) (hr : Reach (· = bootOps) opStep (Within B) s) : Budget B s := by
  refine hr.inv (P := Budget B) ?_ fun _ _ _ h hok hs => budget_step hB h hok hs
  rintro _ rfl
  exact .boot

theorem Budget.n_eq (h : Budget B s) : s.log.n = s.since.toFinset.card := by
  have hset : s.since.toFinset = s.block.toFinset := by
    ext b; simp [h.since b]
  rw [hset, List.toFinset_card_of_nodup h.nodup, h.n]

theorem Budget.check_iff (h : Budget B s) :
    logWriteCheck s.log = .error "too big a transaction" ↔ 29 ≤ s.since.toFinset.card := by
  rw [← h.n_eq]
  have hlim : s.log.n ≥ LOGSIZE ∨ s.log.n ≥ s.log.size - 1 ↔ 29 ≤ s.log.n := by
    rw [h.size]; simp only [nlog, LOGSIZE, MAXOPBLOCKS]; omega
  unfold logWriteCheck
  split
  · rename_i hn; exact iff_of_true rfl (hlim.1 hn)
  · rename_i hn
    refine iff_of_false ?_ (mt hlim.2 hn)
    split <;> simp

/-- In every run in which no operation logs more than `MAXOPBLOCKS` distinct blocks, a call of
`log_write` finds the transaction too big exactly when 29 distinct blocks have been logged since the last
commit, and it never finds more than the 30 that `log.lh` has room for. In every run in which no
operation logs more than one block less, no call ever does. -/
theorem log_reservations (N : Nat) :
    (∀ s : Ops N, Reach (· = bootOps) opStep (Within MAXOPBLOCKS) s →
      (logWriteCheck s.log = .error "too big a transaction" ↔ 29 ≤ s.since.toFinset.card) ∧ s.log.n ≤ LOGSIZE) ∧
    ∀ s : Ops N, Reach (· = bootOps) opStep (Within (MAXOPBLOCKS - 1)) s →
      logWriteCheck s.log ≠ .error "too big a transaction" ∧ s.log.n < s.log.size - 1 := by
  constructor
  · intro s hr
    have h := budget_reach le_rfl hr
    have hfits := h.fits
    refine ⟨h.check_iff, ?_⟩
    simp only [LOGSIZE, MAXOPBLOCKS] at hfits ⊢
    omega
  · intro s hr
    have h := budget_reach (Nat.sub_le _ _) hr
    have hfits := h.fits
    have hn : s.log.n < 29 := by
      simp only [MAXOPBLOCKS] at hfits; omega
    refine ⟨fun hc => ?_, ?_⟩
    · rw [h.check_iff, ← h.n_eq] at hc; omega
    · rw [h.size]; exact hn

/-- Calls of `log_write` by `p`, one after the other. -/
def writes (p : Fin N) (bs : List BlockNo) : List (OpAct N) := bs.flatMap fun b => [.logWrite p b, .logAppend p]

/-- Three operations are admitted at once, and their calls of `log_write` follow. -/
def threeOps (p q r : Fin N) (bs cs ds : List BlockNo) : List (OpAct N) :=
  [.beginOp p, .beginOp q, .beginOp r] ++ writes p bs ++ writes q cs ++ writes r ds

/-- Three operations are admitted and log nine distinct blocks each. -/
theorem log_reservations_nine :
    ∃ s : Ops 3, s.log.n = 27 ∧ logWriteCheck s.log ≠ .error "too big a transaction" := by
  have hrun : (runActs (guarded opStep (Within (MAXOPBLOCKS - 1))) bootOps (threeOps 0 1 2
      [40, 41, 42, 43, 44, 45, 46, 47, 48] [50, 51, 52, 53, 54, 55, 56, 57, 58]
      [60, 61, 62, 63, 64, 65, 66, 67, 68])).any (fun s : Ops 3 => s.log.n = 27) = true := by decide +kernel
  obtain ⟨s, hr, hs⟩ := exists_reach_of_guarded_run (· = bootOps) (Within (MAXOPBLOCKS - 1)) rfl _ _ hrun
  exact ⟨s, of_decide_eq_true hs, ((log_reservations 3).2 s hr).1⟩

/-- Three operations are admitted and log ten distinct blocks each: the last call of `log_write` panics.
If two of them make their checks at once with 28 blocks logged, both append, and the log has one block
more than there is room for behind the header. -/
theorem three_ops_too_big :
    (∃ s : Ops 3, Reach (· = bootOps) opStep (Within MAXOPBLOCKS) s ∧ s.pc 2 = .op ∧
      Within MAXOPBLOCKS s (.logWrite 2 69) ∧ logWriteCheck s.log = .error "too big a transaction") ∧
    ∃ s : Ops 3, Reach (· = bootOps) opStep (Within MAXOPBLOCKS) s ∧ s.log.n = 30 ∧ s.log.size - 1 = 29 := by
  constructor
  · have hrun : (runActs (guarded opStep (Within MAXOPBLOCKS)) bootOps (threeOps 0 1 2
        [40, 41, 42, 43, 44, 45, 46, 47, 48, 49] [50, 51, 52, 53, 54, 55, 56, 57, 58, 59]
        [60, 61, 62, 63, 64, 65, 66, 67, 68])).any (fun s : Ops 3 =>
          s.pc 2 = .op ∧ Within MAXOPBLOCKS s (.logWrite 2 69) ∧ s.log.n = 29 ∧ s.log.size = 30) = true := by
      decide +kernel
    obtain ⟨s, hr, hs⟩ := exists_reach_of_guarded_run (· = bootOps) (Within MAXOPBLOCKS) rfl _ _ hrun
    obtain ⟨hp, hb, hn, hsize⟩ := of_decide_eq_true hs
    exact ⟨s, hr, hp, hb, if_pos (.inr (by rw [hn, hsize]))⟩
  · have hrun : (runActs (guarded opStep (Within MAXOPBLOCKS)) bootOps (threeOps 0 1 2
        [40, 41, 42, 43, 44, 45, 46, 47, 48, 49] [50, 51, 52, 53, 54, 55, 56, 57, 58]
        [60, 61, 62, 63, 64, 65, 66, 67, 68] ++
        [.logWrite 1 59, .logWrite 2 69, .logAppend 1, .logAppend 2])).any (fun s : Ops 3 =>
          s.log.n = 30 ∧ s.log.size - 1 = 29) = true := by
      decide +kernel
    obtain ⟨s, hr, hs⟩ := exists_reach_of_guarded_run (· = bootOps) (Within MAXOPBLOCKS) rfl _ _ hrun
    obtain ⟨hn, hsize⟩ := of_decide_eq_true hs
    exact ⟨s, hr, hn, hsize⟩

end Xv6.Wal
