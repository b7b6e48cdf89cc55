/-
What holds in every run of the file system, for any number of processes: who waits for whom, and who
writes the log. Three times `make_duplicate` breaks a rule the other calls keep. It reserves log
space with the source locked, so it can wait for processes that wait for the source; it walks
directories with the source locked, so it can wait for one who waits for the source; and it puts
the source and the copy outside a transaction, so it can free them there. For each there is a run
that gets there, and a condition on the steps of a run under which none does.
-/
import Xv6.Fs.Discipline

namespace Xv6.Fs

open Base

variable {N : Nat} {ctx : Fin N → Ctx} {s' : State N} {x : Nat} {o : Op} {r : o.Ret}

/-! ## Sleepers -/

/-- The inode whose lock process `t` sleeps for. -/
def onLock (p : Sys N) (t : Fin N) : Option Inum :=
  match p.next t with
  | some (_, .acquire i _, true) => some i
  | _ => none

/-- Does process `t` sleep in `begin_op`? -/
def onLog (p : Sys N) (t : Fin N) : Bool :=
  match p.next t with
  | some (_, .beginOp, true) => true
  | _ => false

variable {p p' : Sys N} {t : Fin N} {a : PoolAct (Fin N) Nat Call} {s : State N}

theorem onLock_eq_some {i : Inum} : onLock p t = some i ↔ ∃ k put, p.Asleep t k (.acquire i put) := by
  unfold onLock
  constructor
  · intro h
    split at h
    · cases h; exact ⟨_, _, ‹_›⟩
    · cases h
  · rintro ⟨k, put, h⟩; rw [h]

theorem onLog_eq_true : onLog p t = true ↔ ∃ k, p.Asleep t k .beginOp := by
  unfold onLog
  constructor
  · intro h
    split at h
    · exact ⟨_, ‹_›⟩
    · cases h
  · rintro ⟨k, h⟩; rw [h]

theorem step_others (h : (rules N).Holds p ctx) (hs : (kernel N).step p a = some p') {u : Fin N}
    (hu : ∀ x, a ≠ .step u x) :
    p'.mem.inOp u = p.mem.inOp u ∧ ∀ i, (p'.mem.cache i).lock = some u ↔ (p.mem.cache i).lock = some u := by
  rcases Kernel.mem_step hs with hm | ⟨t, k, o, f, z, x, r, rfl, ht, he⟩
  · rw [hm]; exact ⟨rfl, fun _ => Iff.rfl⟩
  · have hut : u ≠ t := fun hut => hu x (by rw [hut])
    obtain ⟨_, _, hi⟩ := h.inv
    obtain ⟨c, _, _, hi', -⟩ := exec_sound hi (h.thread ht) he
    have hl := hi.loc u
    have hl' := hi'.loc u
    rw [Function.update_of_ne hut] at hl'
    exact ⟨hl'.tx.trans hl.tx.symm, fun i => (hl'.lock i).trans (hl.lock i).symm⟩

/-! ## A small file system -/

/-- The name `f`. -/
def fName : Name := [102]

/-- A root directory with a file `f`, which every process may have open as descriptor 0. -/
def oneFile (N : Nat) (opened : Bool) : Sys N where
  mem :=
    { ino := fun i =>
        if i = 1 then { type := .dir, nlink := 1, ents := [⟨1, dot⟩, ⟨1, dotdot⟩, ⟨2, fName⟩] }
        else if i = 2 then { type := .file, nlink := 1, data := [65] }
        else {}
      cache := fun i => if i = 1 then { ref := N } else if i = 2 ∧ opened = true then { ref := N } else {}
      used := if opened then 2 else 1
      ninodes := 200
      log := {}
      nfile := if opened then N else 0
      ofile := fun _ fd =>
        if fd.val = 0 ∧ opened = true then some { ip := some 2, readable := true, writable := true } else none
      cwd := fun _ => ROOTINO
      inOp := fun _ => false
      carried := fun _ => [] }
  thr := fun _ => none

theorem oneFile_outside (opened : Bool) (t : Fin N) (i : Inum) :
    (oneFile N opened).mem.outside t i = (if i = 2 ∧ opened = true then 1 else 0) + if i = 1 then 1 else 0 := by
  have hfd : ∀ fd : Fin NOFILE, (if (((oneFile N opened).mem.ofile t fd).bind File.ip) = some i then 1 else 0) =
      if fd = 0 then (if i = 2 ∧ opened = true then 1 else 0) else 0 := fun fd => by
    by_cases h0 : fd = 0
    · subst h0
      cases opened
      · simp [oneFile]
      · simp [oneFile, eq_comm]
    · simp [oneFile, h0]
  unfold State.outside
  rw [Finset.sum_congr rfl fun fd _ => hfd fd, Finset.sum_ite_eq' Finset.univ (0 : Fin NOFILE),
    if_pos (Finset.mem_univ _)]
  simp [oneFile, ROOTINO, eq_comm]

theorem oneFile_atRest (N : Nat) (opened : Bool) : AtRest (oneFile N opened) := by
  refine ⟨fun _ => rfl, fun _ => rfl, fun _ => rfl, fun i => ?_, ⟨rfl, rfl⟩, fun i => ?_, fun i h => ?_, fun _ => 0, 1,
    fun d e hd he h0 hn hc => ?_, fun _ => one_pos⟩
  · simp only [oneFile]
    split
    · rfl
    · split <;> rfl
  · rw [Finset.sum_const_nat fun t _ => oneFile_outside opened t i, Finset.card_univ, Fintype.card_fin]
    by_cases h1 : i = 1
    · subst h1; simp [oneFile]
    · by_cases h2 : i = 2 ∧ opened = true <;> simp [oneFile, h1, h2]
  · simp only [oneFile] at h
    split at h
    · cases h
    · split at h <;> cases h
  · -- the only directory is the root, and `f` is not one
    simp only [oneFile] at hd he hc
    split at hd
    · rename_i hd1
      rw [if_pos hd1] at he
      simp only [List.mem_cons, List.not_mem_nil, or_false] at he
      rcases he with rfl | rfl | rfl
      · exact absurd (.inl rfl) hn
      · exact absurd (.inr rfl) hn
      · cases hc
    · split at hd <;> cases hd

/-- Process `t` takes `n` operations; one that writes the log adds a block. -/
def steps (t : Fin N) (n : Nat) : List (PoolAct (Fin N) Nat Call) := List.replicate n (.step t 1)

/-- Process `t` calls `k` and takes the first `n` operations of it. -/
def callSteps (t : Fin N) (k : Call) (n : Nat) : List (PoolAct (Fin N) Nat Call) := .call t k :: steps t n

/-- The same up to the operation it sleeps in. -/
def callSleeps (t : Fin N) (k : Call) (n : Nat) : List (PoolAct (Fin N) Nat Call) := callSteps t k n ++ [.sleep t]

/-! ## Log space -/

/-- A process waits in `begin_op` for log space, and every process in a transaction waits for the
lock of an inode that it has locked. -/
def LogDeadlock (p : Sys N) : Prop :=
  ∃ u i, onLog p u = true ∧ p.mem.log.committing = false ∧ p.mem.admits = false ∧
    (p.mem.cache i).lock = some u ∧ ∀ t, p.mem.inOp t = true → onLock p t = some i

/-- A process goes to sleep in `begin_op` only if no process in a transaction waits for a lock it
holds, and one in a transaction goes to sleep for a lock only if its holder does not sleep in
`begin_op`. -/
def ReservesApart (p : Sys N) : PoolAct (Fin N) Nat Call → Prop
  | .sleep u =>
    match p.next u with
    | some (_, .beginOp, _) => ∀ t, p.mem.inOp t = true → ∀ i ∈ onLock p t, (p.mem.cache i).lock ≠ some u
    | some (_, .acquire i _, _) => p.mem.inOp u = true → ∀ v ∈ (p.mem.cache i).lock, onLog p v = false
    | _ => True
  | _ => True

instance (p : Sys N) (a : PoolAct (Fin N) Nat Call) : Decidable (ReservesApart p a) := by
  unfold ReservesApart
  split
  · split <;> infer_instance
  · infer_instance

/-- No process in a transaction waits for a lock of a process asleep in `begin_op`. -/
def LogApart (p : Sys N) : Prop :=
  ∀ u t i, onLog p u = true → p.mem.inOp t = true → onLock p t = some i → (p.mem.cache i).lock ≠ some u

theorem logApart_step (hh : ∃ ctx, (rules N).Holds p ctx) (h : LogApart p) (hok : ReservesApart p a)
    (hs : (kernel N).step p a = some p') : LogApart p' := by
  intro u t i hu htx ht
  obtain ⟨ctx, hh⟩ := hh
  obtain ⟨k, hu⟩ := onLog_eq_true.1 hu
  obtain ⟨k', put, ht⟩ := onLock_eq_some.1 ht
  rcases Kernel.asleep_step hs hu with ⟨hu0, hus⟩ | ⟨rfl, ⟨z, hu0⟩, hm⟩
  · rcases Kernel.asleep_step hs ht with ⟨ht0, hts⟩ | ⟨rfl, ⟨z, ht0⟩, hm⟩
    · -- both slept before, and neither moved
      rw [(step_others hh hs hts).1] at htx
      rw [Ne, (step_others hh hs hus).2 i]
      exact h u t i (onLog_eq_true.2 ⟨k, hu0⟩) htx (onLock_eq_some.2 ⟨k', put, ht0⟩)
    · rw [hm] at htx ⊢
      simp only [ReservesApart, ht0] at hok
      intro hl
      have hv := hok htx u hl
      rw [onLog_eq_true.2 ⟨k, hu0⟩] at hv
      cases hv
  · rw [hm] at htx ⊢
    simp only [ReservesApart, hu0] at hok
    rcases Kernel.asleep_step hs ht with ⟨ht0, -⟩ | ⟨heq, ⟨z', ht0⟩, -⟩
    · exact hok t htx i (onLock_eq_some.2 ⟨k', put, ht0⟩)
    · cases heq; rw [hu0] at ht0; cases ht0

theorem admits_of_idle (h : LogInv s.inOp s.log) (hc : s.log.committing = false) (ht : ∀ t, s.inOp t ≠ true) :
    s.admits = true := by
  have hout : s.log.outstanding = 0 := by
    rw [h.out, Finset.card_eq_zero, Finset.filter_eq_empty_iff]; exact fun t _ => ht t
  have hn := h.idle hout hc
  simp [State.admits, hc, hn, hout, MAXOPBLOCKS, LOGSIZE]

/-- In a run whose reservations keep apart from the waits for locks, no process waits for log space
while every process in a transaction waits for a lock it holds. -/
theorem no_log_deadlock (p : Sys N) (hr : Reach AtRest (kernel N).step ReservesApart p) : ¬ LogDeadlock p := by
  rintro ⟨u, i, hu, hc, hadm, hl, hall⟩
  have hapart : LogApart p := hr.inv_of (fun _ hr => reach_holds hr)
    (fun p h u t i hu => by simp [onLog, Pool.next, h.thr u] at hu) fun _ _ _ hh h hok hs => logApart_step hh h hok hs
  obtain ⟨ctx, hh⟩ := reach_holds hr
  obtain ⟨_, _, hi⟩ := hh.inv
  have hroom := admits_of_idle hi.log hc fun t ht => hapart u t i hu ht (hall t ht) hl
  rw [hadm] at hroom
  cases hroom

/-- One process writes to the file that `make_duplicate` copies, and waits for it. -/
theorem no_log_deadlock_writer :
    ∃ p : Sys 4, Reach AtRest (kernel 4).step ReservesApart p ∧ onLock p 1 = some 2 ∧ ¬ LogDeadlock p := by
  have hrun : (runActs (guarded (kernel 4).step ReservesApart) (oneFile 4 true)
      (callSteps 0 (.makeDuplicate fName) 45 ++ callSleeps 1 (.filewrite 0 [66]) 2)).any
      (fun p => decide (onLock p 1 = some 2)) = true := by decide +kernel
  obtain ⟨p, hr, hp⟩ := exists_reach_of_guarded_run AtRest ReservesApart (oneFile_atRest 4 true) _ _ hrun
  exact ⟨p, hr, of_decide_eq_true hp, no_log_deadlock p hr⟩

/-- Three processes write to the file that `make_duplicate` copies, each in its transaction. -/
theorem copy_log_deadlock : ∃ p : Sys 4, Reachable AtRest (kernel 4).step p ∧ LogDeadlock p := by
  have hrun : (runActs (kernel 4).step (oneFile 4 true)
      (callSteps 0 (.makeDuplicate fName) 45 ++ callSleeps 1 (.filewrite 0 [66]) 2 ++
        callSleeps 2 (.filewrite 0 [66]) 2 ++ callSleeps 3 (.filewrite 0 [66]) 2 ++ [.sleep 0])).any
      (fun p => decide (onLog p 0 = true ∧ p.mem.log.committing = false ∧ p.mem.admits = false ∧
        (p.mem.cache 2).lock = some 0 ∧ ∀ t, p.mem.inOp t = true → onLock p t = some 2)) = true := by decide +kernel
  obtain ⟨p, hr, hp⟩ := exists_reachable_of_run AtRest (oneFile_atRest 4 true) _ _ hrun
  exact ⟨p, hr, 0, 2, of_decide_eq_true hp⟩

/-! ## Locks -/

/-- Two processes wait for each other's lock. -/
def LockDeadlock (p : Sys N) : Prop :=
  ∃ a b x y, (p.mem.cache x).lock = some a ∧ onLock p a = some y ∧ (p.mem.cache y).lock = some b ∧
    onLock p b = some x

/-- A process goes to sleep for a lock with another one held only in an `ilock`, and not in
`make_duplicate`. -/
def ParentFirst (p : Sys N) : PoolAct (Fin N) Nat Call → Prop
  | .sleep t =>
    match p.next t with
    | some (k, .acquire _ put, _) => (∀ j, (p.mem.cache j).lock ≠ some t) ∨ put = false ∧ k.isDup = false
    | _ => True
  | _ => True

/-- The same of every process that sleeps. -/
def WaitsInOrder (p : Sys N) : Prop :=
  ∀ t k i put, p.Asleep t k (.acquire i put) → (∀ j, (p.mem.cache j).lock ≠ some t) ∨ put = false ∧ k.isDup = false

theorem waitsInOrder_step (hh : ∃ ctx, (rules N).Holds p ctx) (h : WaitsInOrder p) (hok : ParentFirst p a)
    (hs : (kernel N).step p a = some p') : WaitsInOrder p' := by
  intro t k i put ht
  obtain ⟨ctx, hh⟩ := hh
  rcases Kernel.asleep_step hs ht with ⟨ht0, hts⟩ | ⟨rfl, ⟨z, ht0⟩, hm⟩
  · refine (h t k i put ht0).imp_left fun hfree j hj => hfree j ?_
    exact ((step_others hh hs hts).2 j).1 hj
  · rw [hm]; simpa only [ParentFirst, ht0] using hok

/-- Who waits in order for `y` with `x` locked, waits for something younger than `x` if it is a
directory, and `x` is one. -/
theorem Inv.waits_younger {birth : Inum → Nat} {clock : Nat} {x y : Inum} (h : Inv s ctx birth clock)
    (hx : (s.cache x).lock = some t) (hw : (ctx t).MayWait false y false) :
    (s.ino x).type = .dir ∧ ((s.ino y).type = .dir → birth x < birth y) := by
  have hl := h.loc t
  rcases hw with hw | hw | hw
  · cases hw
  · cases hw
  · obtain ⟨hdir, he | hn⟩ := hw x ((hl.lock x).1 hx)
    · obtain ⟨hty, e, hm, rfl, h0, hn⟩ := hl.facts _ he; exact ⟨hty, h.tree x e hty hm h0 hn⟩
    · exact ⟨(hl.facts _ hdir).1, fun _ => (hl.facts _ hn).2⟩

/-- In a run in which who holds an inode lock sleeps for another one only in the `ilock` of a call
other than `make_duplicate`, no two processes wait for each other's lock. -/
theorem no_lock_deadlock (p : Sys N) (hr : Reach AtRest (kernel N).step ParentFirst p) : ¬ LockDeadlock p := by
  rintro ⟨a, b, x, y, hx, ha, hy, hb⟩
  have horder : WaitsInOrder p := hr.inv_of (fun _ hr => reach_holds hr)
    (fun p h t k i put ht => by simp [Pool.Asleep, Pool.next, h.thr t] at ht) fun _ _ _ hh h hok hs =>
      waitsInOrder_step hh h hok hs
  obtain ⟨ctx, hh⟩ := reach_holds hr
  obtain ⟨birth, _, hi⟩ := hh.inv
  have hyounger : ∀ {t : Fin N} {x y : Inum}, (p.mem.cache x).lock = some t → onLock p t = some y →
      (p.mem.ino x).type = .dir ∧ ((p.mem.ino y).type = .dir → birth x < birth y) := fun {t x y} hx ht => by
    obtain ⟨k, put, ht⟩ := onLock_eq_some.1 ht
    obtain ⟨Q, hw, -⟩ := hh.at ht.at
    rcases horder t k y put ht with hfree | ⟨rfl, hk⟩
    · exact absurd hx (hfree x)
    · rw [hk] at hw; exact hi.waits_younger hx hw
  obtain ⟨hxd, hxy⟩ := hyounger hx ha
  obtain ⟨hyd, hyx⟩ := hyounger hy hb
  have := hxy hyd
  have := hyx hxd
  omega

/-- Is a step a sleep in the `ilock` of a call other than `make_duplicate`, or no sleep? -/
def ilockSleeps (p : Sys N) : PoolAct (Fin N) Nat Call → Bool
  | .sleep t =>
    match p.next t with
    | some (k, .acquire _ put, _) => !put && !k.isDup
    | _ => true
  | _ => true

theorem parentFirst_of_ilockSleeps (p : Sys N) (a : PoolAct (Fin N) Nat Call) (h : ilockSleeps p a = true) :
    ParentFirst p a := by
  cases a with
  | sleep t =>
    simp only [ilockSleeps] at h
    simp only [ParentFirst]
    split
    · rename_i hn; rw [hn] at h; exact .inr (by simpa using h)
    · trivial
  | _ => trivial

/-- `sys_unlink` waits with the directory locked for the file that `make_duplicate` has locked. -/
theorem no_lock_deadlock_unlink :
    ∃ p : Sys 2, Reach AtRest (kernel 2).step (fun p a => ilockSleeps p a = true) p ∧ (p.mem.cache 1).lock = some 1 ∧
      onLock p 1 = some 2 ∧ ¬ LockDeadlock p := by
  have hrun : (runActs (guarded (kernel 2).step fun p a => ilockSleeps p a = true) (oneFile 2 false)
      (callSteps 0 (.makeDuplicate fName) 16 ++ callSleeps 1 (.sysUnlink fName) 10)).any
      (fun p => decide ((p.mem.cache 1).lock = some 1 ∧ onLock p 1 = some 2)) = true := by decide +kernel
  obtain ⟨p, hr, hp⟩ := exists_reach_of_guarded_run AtRest (fun p a => ilockSleeps p a = true) (oneFile_atRest 2 false)
    _ _ hrun
  obtain ⟨h1, h2⟩ := of_decide_eq_true hp
  exact ⟨p, hr, h1, h2, no_lock_deadlock p (hr.mono parentFirst_of_ilockSleeps)⟩

/-- `make_duplicate` has the source locked and waits for its directory, `sys_unlink` has the directory
locked and waits for the source. -/
theorem copy_lock_deadlock : ∃ p : Sys 2, Reachable AtRest (kernel 2).step p ∧ LockDeadlock p := by
  have hrun : (runActs (kernel 2).step (oneFile 2 false)
      (callSteps 0 (.makeDuplicate fName) 16 ++ callSleeps 1 (.sysUnlink fName) 10 ++ [.sleep 0])).any
      (fun p => decide ((p.mem.cache 2).lock = some 0 ∧ onLock p 0 = some 1 ∧ (p.mem.cache 1).lock = some 1 ∧
        onLock p 1 = some 2)) = true := by decide +kernel
  obtain ⟨p, hr, hp⟩ := exists_reachable_of_run AtRest (oneFile_atRest 2 false) _ _ hrun
  exact ⟨p, hr, 0, 1, 2, 1, of_decide_eq_true hp⟩

/-! ## Updates -/

/-- The operations that write the log in state `s`. -/
def WritesLog (s : State N) : Op → Prop
  | .iputFree i => (s.cache i).valid = true ∧ (s.ino i).nlink = 0 ∧ (s.cache i).ref = 1
  | .addEnt _ _ _ | .clearEnt _ _ | .addNlink _ _ | .initInode _ _ _ | .writei _ _ _ => True
  | .iallocTry i _ => (s.ino i).type = .free
  | _ => False

/-- A `make_duplicate` leaves its first transaction only with a link to the source and to the copy,
and no step takes the last link of an inode that one has still to put. -/
def KeepsLinks (p : Sys N) : PoolAct (Fin N) Nat Call → Prop
  | .step t _ =>
    match p.next t with
    | some (_, .carry is, _) => ∀ i ∈ is, 1 ≤ (p.mem.ino i).nlink
    | some (_, .addNlink i delta, _) => (∃ u, i ∈ p.mem.carried u) → 1 ≤ (p.mem.ino i).nlink + delta
    | _ => True
  | _ => True

instance (p : Sys N) (a : PoolAct (Fin N) Nat Call) : Decidable (KeepsLinks p a) := by
  unfold KeepsLinks
  split
  · split <;> infer_instance
  · infer_instance

def CarriesLinked (s : State N) : Prop := ∀ u, ∀ i ∈ s.carried u, 1 ≤ (s.ino i).nlink ∧ (s.ino i).type ≠ .free

theorem CarriesLinked.modIno {j : Inum} {f : Inode → Inode} {log : Log} (h : CarriesLinked s)
    (hf : ∀ u, j ∈ s.carried u → 1 ≤ (f (s.ino j)).nlink ∧ (f (s.ino j)).type ≠ .free) :
    CarriesLinked ({ s with log := log }.modIno j f) := by
  intro u i hi
  by_cases hij : i = j
  · subst hij; rw [modIno_self]; exact hf u hi
  · rw [modIno_of_ne hij]; exact h u i hi

/-- Operations that take or give no lock. -/
def Op.lockFree : Op → Bool
  | .acquire _ _ | .release _ _ => false
  | _ => true

/-- What the operations leave. -/
structure Leaves (s : State N) (o : Op) (s' : State N) : Prop where
  ino : ¬ WritesLog s o → s'.ino = s.ino
  carried : ∀ u, ∀ i ∈ s'.carried u, i ∈ s.carried u ∨ ∃ is, o = .carry is ∧ i ∈ is
  cwd : (∀ i, o ≠ .swapCwd i) → s'.cwd = s.cwd
  lock : o.lockFree = true → ∀ i, (s'.cache i).lock = (s.cache i).lock

theorem exec_frame (he : exec t s x o = some (r, s')) : Leaves s o s' := by
  have hlock : ∀ {s1 : State N} {j : Inum} {e : Entry N}, s1.cache = Function.update s.cache j e →
      e.lock = (s.cache j).lock → ∀ i, (s1.cache i).lock = (s.cache i).lock := fun {s1 j e} hc he i => by
    rw [hc]
    exact modEntry_apply (f := fun _ => e) Entry.lock he i
  cases o with
  | swapCwd j => cases he; exact ⟨fun _ => rfl, fun _ _ => .inl, fun h => absurd rfl (h j), fun _ _ => rfl⟩
  | carry is =>
    cases he
    refine ⟨fun _ => rfl, fun u i hi => ?_, fun _ => rfl, fun _ _ => rfl⟩
    by_cases hu : u = t
    · subst hu; exact .inr ⟨is, rfl, by simpa using hi⟩
    · exact .inl (by simpa [hu] using hi)
  | putRef j =>
    cases he
    refine ⟨fun _ => rfl, fun u i hi => .inl ?_, fun _ => rfl, fun _ => hlock rfl rfl⟩
    by_cases hu : u = t
    · subst hu; exact List.mem_of_mem_erase (by simpa using hi)
    · simpa [hu] using hi
  | acquire j put | release j put =>
    simp only [exec] at he
    split at he <;> cases he
    exact ⟨fun _ => rfl, fun _ _ => .inl, fun _ => rfl, fun h => by cases h⟩
  | addEnt d name j | clearEnt d off | addNlink j delta | initInode j major minor | iallocTry j ty | writei j off bytes
  | iputFree j =>
    simp only [exec] at he
    repeat' split at he
    all_goals first
      | cases he; exact ⟨fun _ => rfl, fun _ _ => .inl, fun _ => rfl, fun _ _ => rfl⟩
      | cases he
      | obtain ⟨-, ⟨⟩⟩ := map_logWrite he
        refine ⟨fun h => absurd ?_ h, fun _ _ => .inl, fun _ => rfl, fun _ => ?_⟩
        · first | exact trivial | assumption
        · first | exact fun _ => rfl | exact hlock rfl rfl
  | _ =>
    simp only [exec, State.iget] at he
    repeat' split at he
    all_goals cases he
    all_goals exact ⟨fun _ => rfl, fun _ _ => .inl,
      fun _ => rfl, by first | exact fun _ _ => rfl | exact fun _ => hlock rfl rfl⟩

/-- Only `nlink--` takes a link from an inode, only one without links is freed, and only `carry` adds
to what is carried. -/
theorem exec_carriesLinked (he : exec t s x o = some (r, s')) (h : CarriesLinked s)
    (hd : ∀ i delta, o = .addNlink i delta → (∃ u, i ∈ s.carried u) → 1 ≤ (s.ino i).nlink + delta)
    (hc : ∀ is, o = .carry is → ∀ i ∈ is, 1 ≤ (s.ino i).nlink ∧ (s.ino i).type ≠ .free) : CarriesLinked s' := by
  by_cases hwl : WritesLog s o
  · cases o with
    | iputFree j =>
      obtain ⟨hv, hn, hr⟩ := hwl
      rw [exec, if_pos ⟨hv, hn, hr⟩] at he
      obtain ⟨-, ⟨⟩⟩ := map_logWrite he
      show CarriesLinked (s.modIno j fun ip => { ip with type := .free, ents := [], data := [] })
      refine h.modIno fun u hu => ?_
      have hlink := (h u j hu).1
      omega
    | iallocTry j ty =>
      rw [exec, if_pos (show (s.ino j).type = .free from hwl)] at he
      obtain ⟨-, ⟨⟩⟩ := map_logWrite he
      exact h.modIno fun u hu => absurd hwl (h u j hu).2
    | addEnt d name j =>
      obtain ⟨-, he⟩ := Option.ite_none_right_eq_some.1 he
      obtain ⟨-, ⟨⟩⟩ := map_logWrite he
      exact h.modIno (h · d)
    | clearEnt d off => obtain ⟨-, ⟨⟩⟩ := map_logWrite he; exact h.modIno (h · d)
    | addNlink j delta =>
      obtain ⟨-, ⟨⟩⟩ := map_logWrite he
      exact h.modIno fun u hu => ⟨hd j delta rfl ⟨u, hu⟩, (h u j hu).2⟩
    | initInode j major minor =>
      obtain ⟨-, ⟨⟩⟩ := map_logWrite he
      exact h.modIno fun u hu => ⟨Int.le_refl 1, (h u j hu).2⟩
    | writei j off bytes =>
      obtain ⟨-, he⟩ := Option.ite_none_left_eq_some.1 he
      split at he
      · cases he; exact h
      · obtain ⟨-, ⟨⟩⟩ := map_logWrite he; exact h.modIno (h · j)
    | _ => exact hwl.elim
  · have hf := exec_frame he
    intro u i hi
    rw [hf.ino hwl]
    rcases hf.carried u i hi with hi | ⟨is, ho, hi⟩
    · exact h u i hi
    · exact hc is ho i hi

theorem carriesLinked_step (hh : ∃ ctx, (rules N).Holds p ctx) (h : CarriesLinked p.mem) (hok : KeepsLinks p a)
    (hs : (kernel N).step p a = some p') : CarriesLinked p'.mem := by
  obtain ⟨ctx, hh⟩ := hh
  rcases Kernel.mem_step hs with hm | ⟨t, k, o, f, z, x, r, rfl, ht, he⟩
  · rw [hm]; exact h
  · have hnext : p.next t = some (k, o, z) := Pool.next_eq_some.2 ⟨f, ht⟩
    refine exec_carriesLinked he h (fun i delta ho hu => ?_) fun is ho i hi => ?_
    · subst ho; simp only [KeepsLinks, hnext] at hok; exact hok hu
    · subst ho
      simp only [KeepsLinks, hnext] at hok
      obtain ⟨_, _, hi'⟩ := hh.inv
      obtain ⟨ty, hf⟩ := (hh.thread ht).1 i hi
      exact ⟨hok i hi, ((hi'.loc t).facts _ hf).alive⟩

/-- The rules let a process write the log in a transaction, or free what it carries. -/
theorem Ctx.tx_of_writesLog {dup : Bool} {c : Ctx} {Q : o.Ret → Ctx → Prop} (hw : c.wp dup o Q) (h : WritesLog s o)
    (hc : ∀ i, o = .iputFree i → i ∉ c.carried) : c.tx = true := by
  cases o with
  | iputFree i => exact hw.2.1.resolve_right (hc i rfl)
  | addEnt d name i | clearEnt d off | addNlink i delta | initInode i major minor | iallocTry i ty
  | writei i off bytes => exact hw.1
  | _ => exact h.elim

/-- In a run in which a `make_duplicate` leaves its first transaction with linked inodes and none of
them loses its last link before it is put, who writes the log, to free an inode or otherwise, is
between `begin_op` and `end_op`, and the transaction is counted. -/
theorem writes_in_transaction (p : Sys N) (hr : Reach AtRest (kernel N).step KeepsLinks p) (t : Fin N) (k : Call)
    (o : Op) (ht : p.At t k o) (hw : WritesLog p.mem o) : p.mem.inOp t = true ∧ 1 ≤ p.mem.log.outstanding := by
  have hcar : CarriesLinked p.mem := hr.inv_of (fun _ hr => reach_holds hr)
    (fun p h u i hi => by simp [h.carried u] at hi) fun _ _ _ hh h hok hs => carriesLinked_step hh h hok hs
  obtain ⟨ctx, hh⟩ := reach_holds hr
  obtain ⟨_, _, hi⟩ := hh.inv
  obtain ⟨Q, hwp⟩ := hh.at ht
  have htx : p.mem.inOp t = true := (hi.loc t).tx.trans (Ctx.tx_of_writesLog hwp hw fun i ho hi' => ?_)
  · refine ⟨htx, ?_⟩
    rw [hi.log.out]
    exact Finset.card_pos.2 ⟨t, by simp [htx]⟩
  · subst ho
    have := (hcar t i ((hi.loc t).carried ▸ hi')).1
    rw [hw.2.1] at this
    omega

/-- `sys_unlink` frees the file. -/
theorem writes_in_transaction_unlink :
    ∃ p : Sys 2, WritesLog p.mem (.iputFree 2) ∧ p.mem.inOp 1 = true ∧ 1 ≤ p.mem.log.outstanding := by
  have hrun : (runActs (guarded (kernel 2).step KeepsLinks) (oneFile 2 false)
      (callSteps 1 (.sysUnlink fName) 22)).any
      (fun p => decide (p.next 1 = some (.sysUnlink fName, .iputFree 2, false) ∧ (p.mem.cache 2).valid = true ∧
        (p.mem.ino 2).nlink = 0 ∧ (p.mem.cache 2).ref = 1)) = true := by decide +kernel
  obtain ⟨p, hr, hp⟩ := exists_reach_of_guarded_run AtRest KeepsLinks (oneFile_atRest 2 false) _ _ hrun
  obtain ⟨hn, hw⟩ := of_decide_eq_true hp
  exact ⟨p, hw, writes_in_transaction p hr 1 (.sysUnlink fName) (.iputFree 2) ⟨false, hn⟩ hw⟩

/-- The source is unlinked while `make_duplicate` copies it: the `iput` that ends the call frees it
outside a transaction, with none open. -/
theorem copy_free_outside : ∃ p : Sys 2, Reachable AtRest (kernel 2).step p ∧
    p.At 0 (.makeDuplicate fName) (.iputFree 2) ∧ WritesLog p.mem (.iputFree 2) ∧ p.mem.inOp 0 = false ∧
    p.mem.log.outstanding = 0 := by
  have hrun : (runActs (kernel 2).step (oneFile 2 false)
      (callSteps 0 (.makeDuplicate fName) 54 ++ callSteps 1 (.sysUnlink fName) 27 ++ steps 0 1)).any
      (fun p => decide (p.next 0 = some (.makeDuplicate fName, .iputFree 2, false) ∧ ((p.mem.cache 2).valid = true ∧
        (p.mem.ino 2).nlink = 0 ∧ (p.mem.cache 2).ref = 1) ∧ p.mem.inOp 0 = false ∧ p.mem.log.outstanding = 0)) =
      true := by decide +kernel
  obtain ⟨p, hr, hp⟩ := exists_reachable_of_run AtRest (oneFile_atRest 2 false) _ _ hrun
  obtain ⟨hn, hw, hx, ho⟩ := of_decide_eq_true hp
  exact ⟨p, hr, ⟨false, hn⟩, hw, hx, ho⟩

end Xv6.Fs
