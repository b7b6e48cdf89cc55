/-
The log of `log.c` on disk: `commit`, and the recovery at boot, as programs over `bread` and
`bwrite`, and that a transaction is atomic whenever the machine crashes. A block is its words; the
header block starts with `n` and the home block numbers. Of the buffer cache only the buffers marked
`B_DIRTY` matter: any other valid buffer equals its block, so it makes no difference whether `bget`
has recycled it. A crash loses the buffers and keeps the blocks.

The invariant is `Pending lh new d`: the header lists `lh`, the log blocks hold the contents `new` of
those blocks, and every other block outside the log is as in `new`. Between its two header writes
`commit` keeps it for the new contents, whatever the home blocks hold; with an empty header the disk
is `new` itself.
-/
import Xv6.Base.Crash
import Xv6.Fs.Disk

namespace Xv6.Wal

open Base Fs Function

/-! ## Blocks and buffers -/

abbrev BlockNo := UInt32

instance : NeZero (BSIZE / 4) := ⟨by decide⟩

/-- The `int`s of a block. -/
abbrev Block := Fin (BSIZE / 4) → UInt32

/-- The buffer operations `log.c` is made of. -/
inductive BufOp
  | bread (b : BlockNo)
  | bwrite (b : BlockNo) (data : Block)

/-- `bread` answers with the contents of the buffer. -/
def BufOp.Answer : BufOp → Type
  | .bread _ => Block
  | .bwrite _ _ => Unit

/-- The disk, and the buffers that are `B_DIRTY`. -/
structure Bufs where
  disk : BlockNo → Block
  dirty : BlockNo → Option Block

def Bufs.write (s : Bufs) (b : BlockNo) (data : Block) : Bufs :=
  { disk := update s.disk b data, dirty := update s.dirty b none }

/-- The operations: `bwrite` returns when the block is on disk, and the buffer is not dirty any more. -/
def exec : (o : BufOp) → Bufs → o.Answer × Bufs
  | .bread b, s => ((s.dirty b).getD (s.disk b), s)
  | .bwrite b data, s => ((), s.write b data)

/-- The machine comes up with an empty buffer cache. -/
def reboot (s : Bufs) : Bufs := { disk := s.disk, dirty := fun _ => none }

abbrev LogM := Prog BufOp BufOp.Answer

def bread (b : BlockNo) : LogM Block := Prog.call (BufOp.bread b)

def bwrite (b : BlockNo) (data : Block) : LogM Unit := Prog.call (BufOp.bwrite b data)

/-! ## `log.c` -/

/-- `struct log`: `lh` is `lh.block` up to `lh.n`. -/
structure Log where
  start : BlockNo
  size : Nat
  lh : List BlockNo := []
  deriving DecidableEq, Repr

/-- The block `log.start+tail+1`. -/
def Log.block (log : Log) (tail : Nat) : BlockNo := log.start + UInt32.ofNat tail + 1

/-- The `n` of a header block, as an `int`. -/
def headN (b : Block) : Int := (b 0).toInt32.toInt

/-- The `i`th entry of `block` in a header block. -/
def headBlock (b : Block) (i : Nat) : BlockNo := if h : i + 1 < BSIZE / 4 then b ⟨i + 1, h⟩ else 0

/-- A header block with `n` and the first `n` entries of `block` assigned; the rest stays. -/
def putHead (b : Block) (lh : List BlockNo) : Block := fun w =>
  if w = 0 then UInt32.ofNat lh.length else (lh[w.val - 1]?).getD (b w)

def installTrans (log : Log) : LogM Unit :=
  log.lh.zipIdx.forM fun (b, tail) => do
    let lbuf ← bread (log.block tail)
    let _ ← bread b
    bwrite b lbuf

/-- `read_head`; `none` is a header with more blocks than `log.lh` has room for. -/
def readHead (log : Log) : LogM (Option Log) := do
  let buf ← bread log.start
  if headN buf > LOGSIZE then pure none
  else pure (some { log with lh := (List.range (headN buf).toNat).map (headBlock buf) })

def writeHead (log : Log) : LogM Unit := do
  let buf ← bread log.start
  bwrite log.start (putHead buf log.lh)

def recoverFromLog (log : Log) : LogM (Option Log) := do
  match ← readHead log with
  | none => pure none
  | some log =>
    installTrans log
    let log := { log with lh := [] }
    writeHead log
    pure (some log)

def writeLog (log : Log) : LogM Unit :=
  log.lh.zipIdx.forM fun (b, tail) => do
    let _ ← bread (log.block tail)
    let data ← bread b
    bwrite (log.block tail) data

def commit (log : Log) : LogM Log :=
  if log.lh.length > 0 then do
    writeLog log
    writeHead log
    installTrans log
    let log := { log with lh := [] }
    writeHead log
    pure log
  else pure log

/-! ## Headers -/

theorem headN_putHead (b : Block) {lh : List BlockNo} (h : lh.length ≤ LOGSIZE) : headN (putHead b lh) = lh.length := by
  have hn : ∀ n : Fin (LOGSIZE + 1), (UInt32.ofNat n.val).toInt32.toInt = (n.val : Int) := by decide
  exact hn ⟨lh.length, by omega⟩

theorem headBlocks_putHead (b : Block) {lh : List BlockNo} (h : lh.length ≤ LOGSIZE) :
    (List.range lh.length).map (headBlock (putHead b lh)) = lh := by
  have hsize : LOGSIZE + 1 < BSIZE / 4 := by decide
  apply List.ext_getElem
  · simp
  · intro i hi _
    have hi : i < lh.length := by simpa using hi
    have hw : i + 1 < BSIZE / 4 := by omega
    simp [headBlock, hw, putHead, hi]

/-! ## Places on disk -/

/-- A block of the log: the header and the `size - 1` blocks behind it. -/
def InLog (start : BlockNo) (size : Nat) (b : BlockNo) : Prop := ∃ i < size, b = start + UInt32.ofNat i

/-- A log whose transaction fits it and has its home blocks elsewhere. -/
structure Log.WF (log : Log) : Prop where
  fits : log.lh.length < log.size
  le : log.lh.length ≤ LOGSIZE
  home : ∀ b ∈ log.lh, ¬ InLog log.start log.size b

variable {tail : Nat} {b : BlockNo} {lh : List BlockNo} {x : BlockNo × Nat} {post pre : List (BlockNo × Nat)}

section

variable {log : Log}

theorem Log.block_eq (log : Log) (tail : Nat) : log.block tail = log.start + UInt32.ofNat (tail + 1) := by
  rw [Log.block, UInt32.ofNat_add, UInt32.add_assoc]; rfl

theorem tail_lt (h : (b, tail) ∈ log.lh.zipIdx) : tail < log.lh.length := by
  obtain ⟨-, ht, -⟩ := List.mem_zipIdx h; omega

theorem mem_of_split (h : lh.zipIdx = pre ++ x :: post) : x ∈ lh.zipIdx := by
  rw [h]
  simp

theorem tail_ne_of_split {y : BlockNo × Nat} (h : lh.zipIdx = pre ++ x :: post) (hy : y ∈ pre) : y.2 ≠ x.2 := by
  have hnd : (lh.zipIdx.map Prod.snd).Nodup := by
    rw [List.zipIdx_map_snd]; exact List.nodup_range' ..
  rw [h, List.map_append, List.map_cons] at hnd
  exact (List.nodup_append.1 hnd).2.2 _ (List.mem_map_of_mem hy) _ (.head _)

theorem Log.WF.block_inLog (hw : log.WF) (ht : tail < log.lh.length) : InLog log.start log.size (log.block tail) :=
  ⟨tail + 1, by have := hw.fits; omega, log.block_eq tail⟩

theorem Log.WF.start_inLog (hw : log.WF) : InLog log.start log.size log.start :=
  ⟨0, by have := hw.fits; omega, by simp⟩

theorem Log.WF.block_ne_start (hw : log.WF) (ht : tail < log.lh.length) : log.block tail ≠ log.start := by
  intro h
  have hle := hw.le
  rw [log.block_eq, ← UInt32.toNat_inj, UInt32.toNat_add, UInt32.toNat_ofNat'] at h
  have := log.start.toNat_lt
  simp only [LOGSIZE, MAXOPBLOCKS] at hle
  omega

theorem Log.WF.block_inj (hw : log.WF) {i : Nat} (ht : tail < log.lh.length) (hi : i < log.lh.length)
    (h : log.block tail = log.block i) : tail = i := by
  have hle := hw.le
  rw [log.block_eq, log.block_eq, ← UInt32.toNat_inj, UInt32.toNat_add, UInt32.toNat_add, UInt32.toNat_ofNat',
    UInt32.toNat_ofNat'] at h
  have := log.start.toNat_lt
  simp only [LOGSIZE, MAXOPBLOCKS] at hle
  omega

theorem Log.WF.home_ne (hw : log.WF) {b : BlockNo} (hb : b ∈ log.lh) : b ≠ log.start := by
  rintro rfl; exact hw.home _ hb hw.start_inLog

theorem Log.WF.home_ne_block (hw : log.WF) {b : BlockNo} (hb : b ∈ log.lh) (ht : tail < log.lh.length) :
    b ≠ log.block tail := by
  rintro rfl
  exact hw.home _ hb (hw.block_inLog ht)

end

/-! ## Rules for the operations -/

variable {data : Block}

section

variable {P Q C : Bufs → Prop}

theorem bread_rule (hC : ∀ s, P s → C s) :
    Triple exec P (bread b) (fun buf s => P s ∧ buf = (s.dirty b).getD (s.disk b)) C :=
  .call fun s hs => ⟨hC s hs, hC s hs, hs, rfl⟩

theorem bwrite_rule (h : ∀ s, P s → C s ∧ C (s.write b data) ∧ Q (s.write b data)) :
    Triple exec P (bwrite b data) (fun _ => Q) C :=
  .call h

theorem writeHead_rule {log : Log} (h : ∀ s buf, P s → C s ∧ C (s.write log.start (putHead buf log.lh)) ∧
    Q (s.write log.start (putHead buf log.lh))) : Triple exec P (writeHead log) (fun _ => Q) C :=
  .bind (bread_rule fun s hs => (h s (s.disk log.start) hs).1) fun buf => bwrite_rule fun s hs => h s buf hs.1

end

/-! ## The invariant -/

/-- A disk to be brought to `new` by installing the log. -/
structure Pending (log : Log) (new d : BlockNo → Block) : Prop where
  n : headN (d log.start) = log.lh.length
  head : (List.range log.lh.length).map (headBlock (d log.start)) = log.lh
  logged : ∀ b tail, (b, tail) ∈ log.lh.zipIdx → d (log.block tail) = new b
  rest : ∀ b, ¬ InLog log.start log.size b → b ∉ log.lh → d b = new b

abbrev Log.erased (log : Log) : Log := { log with lh := [] }

theorem Log.WF.erased {log : Log} (hw : log.WF) : log.erased.WF where
  fits := (Nat.zero_le _).trans_lt hw.fits
  le := Nat.zero_le _
  home := by simp

variable {new : BlockNo → Block}

section

variable {log : Log} {d : BlockNo → Block}

/-- A header that lists the transaction makes the blocks logged a pending one. -/
theorem Pending.of_head (hw : log.WF) (buf : Block)
    (hl : ∀ b tail, (b, tail) ∈ log.lh.zipIdx → d (log.block tail) = new b)
    (hr : ∀ b, ¬ InLog log.start log.size b → b ∉ log.lh → d b = new b) :
    Pending log new (update d log.start (putHead buf log.lh)) := by
  refine ⟨?_, ?_, fun b tail h => ?_, fun b hb hn => ?_⟩
  · rw [update_self]; exact headN_putHead buf hw.le
  · rw [update_self]; exact headBlocks_putHead buf hw.le
  · rw [update_of_ne (hw.block_ne_start (tail_lt h))]; exact hl b tail h
  · rw [update_of_ne]
    · exact hr b hb hn
    · rintro rfl; exact hb hw.start_inLog

theorem Pending.install (hw : log.WF) (h : Pending log new d) (hb : b ∈ log.lh) :
    Pending log new (update d b data) := by
  have hs : log.start ≠ b := (hw.home_ne hb).symm
  refine ⟨?_, ?_, fun b' tail hm => ?_, fun b' hb' hn => ?_⟩
  · rw [update_of_ne hs]; exact h.n
  · rw [update_of_ne hs]; exact h.head
  · rw [update_of_ne (hw.home_ne_block hb (tail_lt hm)).symm]; exact h.logged b' tail hm
  · rw [update_of_ne]
    · exact h.rest b' hb' hn
    · rintro rfl; exact hn hb

theorem Pending.erase (hw : log.WF) (h : Pending log new d) (hn : ∀ b ∈ log.lh, d b = new b) (buf : Block) :
    Pending log.erased new (update d log.start (putHead buf [])) := by
  refine Pending.of_head hw.erased buf (by simp) fun b hb _ => ?_
  by_cases hm : b ∈ log.lh
  · exact hn b hm
  · exact h.rest b hb hm

theorem Pending.writeLog (hw : log.WF) (h : Pending log.erased new d) (ht : tail < log.lh.length) :
    Pending log.erased new (update d (log.block tail) data) := by
  have hs : log.start ≠ log.block tail := (hw.block_ne_start ht).symm
  refine ⟨?_, rfl, by simp, fun b hb hn => ?_⟩
  · rw [update_of_ne hs]; exact h.n
  · rw [update_of_ne]
    · exact h.rest b hb hn
    · rintro rfl; exact hb (hw.block_inLog ht)

end

/-! ## Triples of `log.c` -/

variable {old : BlockNo → Block}

section

variable {log : Log}

def LogClean (log : Log) (s : Bufs) : Prop := ∀ tail < log.lh.length, s.dirty (log.block tail) = none

theorem installTrans_triple (hw : log.WF) :
    Triple exec (fun s => Pending log new s.disk ∧ LogClean log s) (installTrans log)
      (fun _ s => Pending log new s.disk ∧ ∀ b ∈ log.lh, s.disk b = new b) fun s => Pending log new s.disk := by
  let I : List (BlockNo × Nat) → Bufs → Prop := fun done s =>
    (Pending log new s.disk ∧ LogClean log s) ∧ ∀ x ∈ done, s.disk x.1 = new x.1
  refine Triple.weaken (Triple.forM I (fun _ _ hs => hs.1.1) ?_) (fun s hs => ⟨hs, by simp⟩)
    (fun _ s hs => ⟨hs.1.1, fun b hb => ?_⟩) fun _ h => h
  · rintro pre ⟨b, tail⟩ post hsplit
    have hmem := mem_of_split hsplit
    have ht := tail_lt hmem
    have hb : b ∈ log.lh := List.fst_mem_of_mem_zipIdx hmem
    refine .bind (bread_rule fun s hs => hs.1.1) fun lbuf => .bind (bread_rule fun s hs => hs.1.1.1) fun _ => ?_
    refine bwrite_rule fun s hs => ?_
    obtain ⟨⟨⟨⟨hp, hc⟩, hd⟩, hbuf⟩, -⟩ := hs
    -- the log block holds the new contents
    have hnew : lbuf = new b := by
      rw [hbuf, hc tail ht]; exact hp.logged b tail hmem
    have hp' : Pending log new (s.write b lbuf).disk := hp.install hw hb
    refine ⟨hp, hp', ⟨hp', fun i hi => ?_⟩, fun x hx => ?_⟩
    · have := hw.home_ne_block hb hi
      simp only [Bufs.write, update_of_ne this.symm]
      exact hc i hi
    · by_cases hxb : x.1 = b
      · simp only [Bufs.write, hxb, update_self]; exact hnew
      · simp only [Bufs.write, update_of_ne hxb]
        rcases List.mem_append.1 hx with hx | hx
        · exact hd x hx
        · rw [List.mem_singleton.1 hx] at hxb; exact absurd rfl hxb
  · obtain ⟨i, hi, rfl⟩ := List.getElem_of_mem hb
    exact hs.2 (log.lh[i], i) (by simp [List.mem_zipIdx_iff_getElem?])

theorem eraseHead_triple (hw : log.WF) :
    Triple exec (fun s => Pending log new s.disk ∧ ∀ b ∈ log.lh, s.disk b = new b) (writeHead log.erased)
      (fun _ s => Pending log.erased new s.disk) fun s => Pending log new s.disk ∨ Pending log.erased new s.disk := by
  refine writeHead_rule fun s buf hs => ?_
  have he : Pending log.erased new (s.write log.start (putHead buf [])).disk := hs.1.erase hw hs.2 buf
  exact ⟨.inl hs.1, .inr he, he⟩

/-- `recover_from_log` on a disk with a pending transaction, or none. -/
theorem recoverFromLog_triple (hw : log.WF) :
    Triple exec (fun s => Pending log new s.disk ∧ ∀ b, s.dirty b = none) (recoverFromLog log.erased)
      (fun r s => r = some log.erased ∧ Pending log.erased new s.disk)
      fun s => Pending log new s.disk ∨ Pending log.erased new s.disk := by
  -- `read_head` finds the transaction
  have hread : Triple exec (fun s => Pending log new s.disk ∧ ∀ b, s.dirty b = none) (readHead log.erased)
      (fun r s => r = some log ∧ Pending log new s.disk ∧ LogClean log s)
      fun s => Pending log new s.disk ∨ Pending log.erased new s.disk := by
    refine .bind (bread_rule fun s hs => .inl hs.1) fun buf => ?_
    intro s hs
    obtain ⟨⟨hp, hc⟩, hbuf⟩ := hs
    rw [hc, Option.getD_none] at hbuf
    have hn : headN buf = log.lh.length := by rw [hbuf]; exact hp.n
    have hle : ¬ headN buf > LOGSIZE := by
      have := hw.le; omega
    have hlh : (List.range (headN buf).toNat).map (headBlock buf) = log.lh := by
      rw [hn, Int.toNat_natCast, hbuf]; exact hp.head
    rw [if_neg hle, hlh]
    have hret : Triple exec (fun s => Pending log new s.disk ∧ ∀ b, s.dirty b = none)
        (.ret (some log) : LogM (Option Log)) (fun r s => r = some log ∧ Pending log new s.disk ∧ LogClean log s)
        fun s => Pending log new s.disk ∨ Pending log.erased new s.disk :=
      .ret fun s hs => ⟨⟨rfl, hs.1, fun _ _ => hs.2 _⟩, .inl hs.1⟩
    exact hret s ⟨hp, hc⟩
  refine .bind hread fun r => ?_
  rintro s ⟨rfl, hs⟩
  have hrest : Triple exec (fun s => Pending log new s.disk ∧ LogClean log s)
      (do installTrans log; writeHead log.erased; pure (some log.erased))
      (fun r s => r = some log.erased ∧ Pending log.erased new s.disk)
      fun s => Pending log new s.disk ∨ Pending log.erased new s.disk := by
    refine .bind ((installTrans_triple hw).weaken (fun _ h => h) (fun _ _ h => h) fun _ => .inl) fun _ => ?_
    exact .bind (eraseHead_triple hw) fun _ => .ret fun s hs => ⟨⟨rfl, hs⟩, .inr hs⟩
  exact hrest s hs

/-- However often it is cut, recovery ends with the pending transaction installed. -/
theorem recovers_pending (hw : log.WF) {s u : Bufs} {r : Option Log}
    (hr : Recovers exec reboot (recoverFromLog log.erased) s r u)
    (hs : Pending log new s.disk ∨ Pending log.erased new s.disk) :
    r = some log.erased ∧ Pending log.erased new u.disk := by
  refine hr.rule (I := fun s => (Pending log new s.disk ∨ Pending log.erased new s.disk) ∧ ∀ b, s.dirty b = none)
    (C := fun s => Pending log new s.disk ∨ Pending log.erased new s.disk)
    (Q := fun r s => r = some log.erased ∧ Pending log.erased new s.disk) (fun s hs => ?_)
    (fun s hs => ⟨hs, fun _ => rfl⟩) hs
  rcases hs with ⟨hs | hs, hc⟩
  · exact recoverFromLog_triple hw s ⟨hs, hc⟩
  · obtain ⟨hq, hcut⟩ := recoverFromLog_triple hw.erased s ⟨hs, hc⟩
    exact ⟨hq, fun t ht => .inr ((hcut t ht).elim id id)⟩

theorem writeLog_triple (hw : log.WF) :
    Triple exec (fun s => Pending log.erased old s.disk ∧ ∀ b ∈ log.lh, s.dirty b = some (new b)) (writeLog log)
      (fun _ s => Pending log.erased old s.disk ∧ LogClean log s ∧
        ∀ b tail, (b, tail) ∈ log.lh.zipIdx → s.disk (log.block tail) = new b)
      fun s => Pending log.erased old s.disk := by
  let I : List (BlockNo × Nat) → Bufs → Prop := fun done s =>
    (Pending log.erased old s.disk ∧ ∀ b ∈ log.lh, s.dirty b = some (new b)) ∧
      ∀ x ∈ done, s.dirty (log.block x.2) = none ∧ s.disk (log.block x.2) = new x.1
  refine Triple.weaken (Triple.forM I (fun _ _ hs => hs.1.1) ?_) (fun s hs => ⟨hs, by simp⟩)
    (fun _ s hs => ⟨hs.1.1, fun i hi => ?_, fun b tail hm => ?_⟩) fun _ h => h
  · rintro pre ⟨b, tail⟩ post hsplit
    have hmem := mem_of_split hsplit
    have ht := tail_lt hmem
    have hb : b ∈ log.lh := List.fst_mem_of_mem_zipIdx hmem
    refine .bind (bread_rule fun s hs => hs.1.1) fun _ => .bind (bread_rule fun s hs => hs.1.1.1) fun data => ?_
    refine bwrite_rule fun s hs => ?_
    obtain ⟨⟨⟨⟨hp, hd⟩, hdone⟩, -⟩, hdata⟩ := hs
    rw [hd b hb, Option.getD_some] at hdata
    have hp' : Pending log.erased old (s.write (log.block tail) data).disk := hp.writeLog hw ht
    refine ⟨hp, hp', ⟨hp', fun b' hb' => ?_⟩, fun x hx => ?_⟩
    · simp only [Bufs.write, update_of_ne (hw.home_ne_block hb' ht)]; exact hd b' hb'
    · rcases List.mem_append.1 hx with hx | hx
      · -- the blocks written so far have other numbers
        have hxm : x ∈ log.lh.zipIdx := by
          rw [hsplit]; exact List.mem_append_left _ hx
        have hblock : log.block x.2 ≠ log.block tail := fun h =>
          tail_ne_of_split hsplit hx (hw.block_inj (tail_lt hxm) ht h)
        simp only [Bufs.write, update_of_ne hblock]
        exact hdone x hx
      · rw [List.mem_singleton.1 hx]
        simp only [Bufs.write, update_self, true_and]
        exact hdata
  · exact (hs.2 (log.lh[i], i) (by simp [List.mem_zipIdx_iff_getElem?])).1
  · exact (hs.2 (b, tail) hm).2

/-- The blocks behind a transaction. -/
def Log.after (log : Log) (new old : BlockNo → Block) : BlockNo → Block := fun b => if b ∈ log.lh then new b else old b

/-- `commit` is cut before its header is on disk, with the log to be installed, or behind its end. -/
theorem commit_triple (hw : log.WF) :
    Triple exec (fun s => Pending log.erased old s.disk ∧ ∀ b ∈ log.lh, s.dirty b = some (new b)) (commit log)
      (fun r s => r = log.erased ∧ Pending log.erased (log.after new old) s.disk)
      fun s => Pending log.erased old s.disk ∨ Pending log (log.after new old) s.disk ∨
        Pending log.erased (log.after new old) s.disk := by
  unfold commit
  split
  · refine .bind ((writeLog_triple hw).weaken (fun _ h => h) (fun _ _ h => h) fun _ => .inl) fun _ => ?_
    refine .bind (M := fun _ s => Pending log (log.after new old) s.disk ∧ LogClean log s)
      (writeHead_rule fun s buf hs => ?_) fun _ => ?_
    · -- this write is the commit
      obtain ⟨hp, hc, hl⟩ := hs
      have hp' : Pending log (log.after new old) (s.write log.start (putHead buf log.lh)).disk := by
        refine Pending.of_head hw buf (fun b tail hm => ?_) fun b hb hn => ?_
        · rw [hl b tail hm, Log.after, if_pos (List.fst_mem_of_mem_zipIdx hm)]
        · rw [hp.rest b hb (by simp), Log.after, if_neg hn]
      refine ⟨.inl hp, .inr (.inl hp'), hp', fun i hi => ?_⟩
      simp only [Bufs.write, update_of_ne (hw.block_ne_start hi)]
      exact hc i hi
    · refine .bind ((installTrans_triple hw).weaken (fun _ h => h) (fun _ _ h => h) fun _ h =>
        .inr (.inl h)) fun _ => ?_
      refine .bind ((eraseHead_triple hw).weaken (fun _ h => h) (fun _ _ h => h) fun _ => .inr) fun _ => ?_
      exact .ret fun s hs => ⟨⟨rfl, hs⟩, .inr (.inr hs)⟩
  · rename_i hn
    have hnil : log.lh = [] := List.length_eq_zero_iff.1 (by omega)
    have he : log = log.erased := by
      rw [Log.erased, ← hnil]
    have ha : log.after new old = old := by
      funext b
      simp [Log.after, hnil]
    rw [ha]
    exact .ret fun s hs => ⟨⟨he, hs.1⟩, .inl hs.1⟩

end

/-! ## Crash atomicity -/

/-- A transaction: home blocks in the order they were logged, with their new contents. It leaves room
for the header, and no home block is in the log. -/
structure Txn (start : BlockNo) (size : Nat) where
  lh : List BlockNo
  new : BlockNo → Block
  fits : lh.length < size
  le : lh.length ≤ LOGSIZE
  home : ∀ b ∈ lh, ¬ InLog start size b

variable {start : BlockNo} {size : Nat}

section

variable {d : BlockNo → Block}

def Txn.log (T : Txn start size) : Log := { start := start, size := size, lh := T.lh }

theorem Txn.wf (T : Txn start size) : T.log.WF := ⟨T.fits, T.le, T.home⟩

/-- `commit` finds the transaction in the dirty buffers of its home blocks. -/
def Txn.Ready (T : Txn start size) (d : BlockNo → Block) (s : Bufs) : Prop :=
  s.disk = d ∧ ∀ b ∈ T.lh, s.dirty b = some (T.new b)

/-- A crash in `s`, with all the recoveries after it; the last one ends in `u`. -/
abbrev Recovered (start : BlockNo) (size : Nat) (s : Bufs) (r : Option Log) (u : Bufs) : Prop :=
  Recovers exec reboot (recoverFromLog { start := start, size := size }) s r u

/-- The disks a log leaves behind, from one that `mkfs` made: transactions are committed, or the machine
crashes in one and recovers. -/
inductive Disks (start : BlockNo) (size : Nat) : (BlockNo → Block) → Prop
  | mkfs {d : BlockNo → Block} (h : headN (d start) = 0) : Disks start size d
  | commit {d : BlockNo → Block} {s : Bufs} (hd : Disks start size d) (T : Txn start size) (hs : T.Ready d s) :
      Disks start size ((commit T.log).run exec s).2.disk
  | crash {d : BlockNo → Block} {s t u : Bufs} {r : Option Log} (hd : Disks start size d) (T : Txn start size)
      (hs : T.Ready d s) (ht : (Wal.commit T.log).Cut exec s t) (hu : Recovered start size t r u) :
      Disks start size u.disk

theorem Txn.commit_spec (T : Txn start size) {s : Bufs} (hn : headN (d start) = 0) (hs : T.Ready d s) :
    Pending T.log.erased (T.log.after T.new d) ((commit T.log).run exec s).2.disk ∧
    ∀ t, (commit T.log).Cut exec s t → Pending T.log.erased d t.disk ∨ Pending T.log (T.log.after T.new d) t.disk ∨
      Pending T.log.erased (T.log.after T.new d) t.disk := by
  obtain ⟨rfl, hnew⟩ := hs
  have hp : Pending T.log.erased s.disk s.disk := ⟨hn, rfl, by simp, fun _ _ _ => rfl⟩
  obtain ⟨hq, hcut⟩ := commit_triple T.wf s ⟨hp, hnew⟩
  exact ⟨hq.2, hcut⟩

/-- A crash in `commit` is recovered to the old blocks or the new ones. -/
theorem Txn.recovered_spec (T : Txn start size) {s t u : Bufs} {r : Option Log} (hn : headN (d start) = 0)
    (hs : T.Ready d s) (ht : (commit T.log).Cut exec s t) (hu : Recovered start size t r u) :
    r = some T.log.erased ∧ (Pending T.log.erased d u.disk ∨ Pending T.log.erased (T.log.after T.new d) u.disk) := by
  rcases (T.commit_spec hn hs).2 t ht with h | h
  · obtain ⟨hr, hp⟩ := recovers_pending T.wf.erased hu (.inl h); exact ⟨hr, .inl hp⟩
  · obtain ⟨hr, hp⟩ := recovers_pending T.wf hu h; exact ⟨hr, .inr hp⟩

theorem Disks.headN_eq (hd : Disks start size d) : headN (d start) = 0 := by
  induction hd with
  | mkfs h => exact h
  | commit _ T hs ih => exact (T.commit_spec ih hs).1.n
  | crash _ T hs ht hu ih =>
    rcases (T.recovered_spec ih hs ht hu).2 with h | h
    · exact h.n
    · exact h.n

/-- A transaction is atomic: wherever `commit` is cut, and however often recovery is, when recovery ends
every block outside the log is as before the transaction, or every one is as behind it, and the header
is empty. After `commit` has returned they are as behind it. -/
theorem commit_crash_atomic (hd : Disks start size d) (T : Txn start size) {s : Bufs} (hs : T.Ready d s) :
    (∀ t r u, (commit T.log).Cut exec s t → Recovered start size t r u →
      r = some { start := start, size := size } ∧ headN (u.disk start) = 0 ∧
      ((∀ b, ¬ InLog start size b → u.disk b = d b) ∨
        ∀ b, ¬ InLog start size b → u.disk b = if b ∈ T.lh then T.new b else d b)) ∧
    ∀ r u, Recovered start size ((commit T.log).run exec s).2 r u →
      r = some { start := start, size := size } ∧ headN (u.disk start) = 0 ∧
      ∀ b, ¬ InLog start size b → u.disk b = if b ∈ T.lh then T.new b else d b := by
  have hn := hd.headN_eq
  constructor
  · intro t r u ht hu
    obtain ⟨hr, h | h⟩ := T.recovered_spec hn hs ht hu
    · exact ⟨hr, h.n, .inl fun b hb => h.rest b hb (by simp)⟩
    · exact ⟨hr, h.n, .inr fun b hb => h.rest b hb (by simp)⟩
  · intro r u hu
    obtain ⟨hr, h⟩ := recovers_pending T.wf hu (.inr (T.commit_spec hn hs).1)
    exact ⟨hr, h.n, fun b hb => h.rest b hb (by simp)⟩

end

theorem outside_log : ¬ InLog 2 30 100 ∧ ¬ InLog 2 30 101 := by
  have h : ∀ i < 30, (100 : UInt32) ≠ 2 + UInt32.ofNat i ∧ (101 : UInt32) ≠ 2 + UInt32.ofNat i := by decide
  exact ⟨fun ⟨i, hi, hb⟩ => (h i hi).1 hb, fun ⟨i, hi, hb⟩ => (h i hi).2 hb⟩

def Txn.single (b : BlockNo) (v : UInt32) (h : ¬ InLog 2 30 b) : Txn 2 30 where
  lh := [b]
  new := fun _ _ => v
  fits := (by decide : 1 < 30)
  le := (by decide : 1 ≤ LOGSIZE)
  home := fun c hc => List.mem_singleton.1 hc ▸ h

theorem Txn.single_ready {v : UInt32} {h : ¬ InLog 2 30 b} (d : BlockNo → Block) :
    (Txn.single b v h).Ready d ⟨d, fun _ => some fun _ => v⟩ :=
  ⟨rfl, fun _ _ => rfl⟩

/-- One block on an empty disk, with a crash right after the header is written and another one in the
recovery. -/
theorem commit_crash_atomic_twice :
    ∃ (T : Txn 2 30) (s t u v : Bufs) (r : Option Log), T.lh = [100] ∧ (commit T.log).Cut exec s t ∧
      headN (t.disk 2) = 1 ∧ (recoverFromLog { start := 2, size := 30 }).Cut exec (reboot t) u ∧ Recovered 2 30 u r v ∧
      headN (v.disk 2) = 0 ∧ (v.disk 100 = s.disk 100 ∨ v.disk 100 = T.new 100) := by
  have hout := outside_log.1
  let T := Txn.single 100 7 hout
  let s : Bufs := ⟨fun _ _ => 0, fun _ => some fun _ => 7⟩
  have hs : T.Ready (fun _ _ => 0) s := Txn.single_ready _
  obtain ⟨t, hcut, hhead⟩ : ∃ t, (commit T.log).Cut exec s t ∧ headN (t.disk 2) = 1 :=
    ⟨_, .op (.op (.op (.op (.op (.here _ _))))), rfl⟩
  obtain ⟨u, hcut'⟩ : ∃ u, (recoverFromLog { start := 2, size := 30 }).Cut exec (reboot t) u := ⟨_, .op (.here _ _)⟩
  obtain ⟨-, hn, h⟩ := (commit_crash_atomic (.mkfs rfl) T hs).1 t _ _ hcut (.crash hcut' (.done u))
  exact ⟨T, s, t, u, _, _, rfl, hcut, hhead, hcut', .done u, hn, h.imp (fun h => h 100 hout) fun h => h 100 hout⟩

/-! ## Durability -/

section

variable {d0 d : BlockNo → Block} {l : List (Txn start size × Bool)}

/-- The disk after transactions of which `commit` returned (`true`) or was cut by a crash, with the recoveries after
it. -/
inductive History (d0 : BlockNo → Block) : List (Txn start size × Bool) → (BlockNo → Block) → Prop
  | mkfs (hn : headN (d0 start) = 0) : History d0 [] d0
  | commit {l d s} (h : History d0 l d) (T : Txn start size) (hs : T.Ready d s) :
      History d0 (l ++ [(T, true)]) ((commit T.log).run exec s).2.disk
  | crash {l d s t u r} (h : History d0 l d) (T : Txn start size) (hs : T.Ready d s)
      (ht : (Wal.commit T.log).Cut exec s t) (hu : Recovered start size t r u) : History d0 (l ++ [(T, false)]) u.disk

theorem History.disks (h : History d0 l d) : Disks start size d := by
  induction h with
  | mkfs hn => exact .mkfs hn
  | commit _ T hs ih => exact .commit ih T hs
  | crash _ T hs ht hu ih => exact .crash ih T hs ht hu

/-- The blocks outside the log are those of `d0` with the transactions of `kept` applied in their order. -/
def Holds (d0 : BlockNo → Block) (kept : List (Txn start size × Bool)) (d : BlockNo → Block) : Prop :=
  ∀ b, ¬ InLog start size b → d b = kept.foldl (fun d x => x.1.log.after x.1.new d) d0 b

theorem Holds.after {kept : List (Txn start size × Bool)} {x : Txn start size × Bool} {u : BlockNo → Block}
    (h : Holds d0 kept d) (hp : Pending x.1.log.erased (x.1.log.after x.1.new d) u) : Holds d0 (kept ++ [x]) u := by
  intro b hb
  rw [hp.rest b hb (by simp), List.foldl_append, List.foldl_cons, List.foldl_nil, Log.after, Log.after, h b hb]

/-- However many transactions are made and wherever the machine crashes, the disk holds some of them, each whole and in
their order, among them all whose `commit` returned. -/
theorem committed_durable (h : History d0 l d) :
    ∃ kept, (l.filter (·.2)).Sublist kept ∧ kept.Sublist l ∧ Holds d0 kept d := by
  induction h with
  | mkfs hn => exact ⟨[], .slnil, .slnil, fun _ _ => rfl⟩
  | commit h T hs ih =>
    obtain ⟨kept, h1, h2, h3⟩ := ih
    refine ⟨kept ++ [(T, true)], ?_, h2.append_right _, h3.after (T.commit_spec h.disks.headN_eq hs).1⟩
    rw [List.filter_append]
    exact h1.append_right _
  | crash h T hs ht hu ih =>
    obtain ⟨kept, h1, h2, h3⟩ := ih
    rw [List.filter_append, show [(T, false)].filter (·.2) = [] from rfl, List.append_nil]
    rcases (T.recovered_spec h.disks.headN_eq hs ht hu).2 with hp | hp
    · exact ⟨kept, h1, h2.trans (List.sublist_append_left ..), fun b hb => (hp.rest b hb (by simp)).trans (h3 b hb)⟩
    · exact ⟨kept ++ [(T, false)], h1.trans (List.sublist_append_left ..), h2.append_right _, h3.after hp⟩

end

/-- A transaction is committed, and the next one is cut by a crash after its header is written: the first is on disk,
and the second is there or not. -/
theorem committed_durable_crash : ∃ (T T' : Txn 2 30) (d : BlockNo → Block), T.lh = [100] ∧ T'.lh = [101] ∧
    History (fun _ _ => 0) [(T, true), (T', false)] d ∧ d 100 = T.new 100 ∧
    (d 101 = (fun _ => 0) ∨ d 101 = T'.new 101) := by
  let T := Txn.single 100 7 outside_log.1
  let T' := Txn.single 101 9 outside_log.2
  have h1 := History.commit (.mkfs rfl) T (Txn.single_ready fun _ _ => 0)
  have h2 := History.crash h1 T' (Txn.single_ready _) (.op (.op (.op (.op (.op (.here _ _)))))) (.done _)
  obtain ⟨kept, hall, hsub, hdisk⟩ := committed_durable h2
  have hkept : kept = [(T, true)] ∨ kept = [(T, true), (T', false)] := by
    have hall : [(T, true)].Sublist kept := hall
    cases hsub with
    | cons _ h =>
      have hmem := List.mem_singleton.1 ((hall.trans h).subset (.head _))
      cases (Prod.mk.inj hmem).2
    | cons_cons _ h =>
      cases h with
      | cons _ h => exact .inl (by rw [List.sublist_nil.1 h])
      | cons_cons _ h => exact .inr (by rw [List.sublist_nil.1 h])
  have h100 := hdisk 100 outside_log.1
  have h101 := hdisk 101 outside_log.2
  refine ⟨T, T', _, rfl, rfl, h2, ?_, ?_⟩
  · rw [h100]
    rcases hkept with rfl | rfl
    · rfl
    · rfl
  · rw [h101]
    rcases hkept with rfl | rfl
    · exact .inl rfl
    · exact .inr rfl

end Xv6.Wal
