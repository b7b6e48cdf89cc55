/-
The inode cache of `fs.c`, for any number of entries, of processes and of holders of references: the steps
of `iget`, `idup`, `ilock`, `iunlock`, `iput`, `readi`, `writei`, `iupdate` and `ialloc`, and the changes of
`nlink`, `major` and `minor` that the system calls make before an `iupdate`. A section under `icache.lock`,
an `acquiresleep`, a `releasesleep` and an access to an inode's block are one step each.

A holder is a place that keeps a pointer with a counted reference: a local variable, a `cwd`, an open file.
Any process may use a pointer that a holder has, as processes share a file; what the system calls see to is
that a pointer is given to `iput` when no process uses it any more, and is not used from then on. `balloc`
returns the number of some block, never 0, the boot block. A step that panics is not taken.
-/
import Xv6.Base.Run
import Xv6.Base.Count
import Xv6.Fs.Dinode

namespace Xv6.Icache

open Base Fs
open Function (update)

variable {n : Nat} {P R : Type}

/-- The device and the number of an inode. -/
abbrev Key := Nat × Nat

/-- `struct inode`, without its lock; `di` is the copy of the inode on disk. -/
structure Inode where
  key : Key := (0, 0)
  ref : Nat := 0
  valid : Bool := false
  di : Dinode := {}
  deriving DecidableEq

/-- The loop of `readi` or `writei`, with `off` and `n - tot`. -/
structure Copy where
  write : Bool
  off : Nat
  left : Nat
  n : Nat
  deriving DecidableEq

def Copy.step (c : Copy) : Copy :=
  { c with off := c.off + chunk c.off c.left, left := c.left - chunk c.off c.left }

/-- What `iput` does next. -/
inductive Stage
  | acquire | test | count | trunc | free | clear | release | drop
  deriving DecidableEq, Repr

/-- Where a process is: `lock` and `load` are the two parts of `ilock`, `update` is the `iupdate` after a
change, `copy` is the loop of `readi` or `writei`. -/
inductive Pc (n : Nat) (R : Type)
  | idle
  | lock (r : R) (e : Fin n)
  | load (r : R) (e : Fin n)
  | update (e : Fin n)
  | copy (e : Fin n) (c : Copy)
  | put (r : R) (e : Fin n) (k : Stage)
  deriving DecidableEq

namespace Pc

/-- The holder whose pointer a process has passed to `ilock` or `iput`, and the entry it points to. -/
def on : Pc n R → Option (R × Fin n)
  | .lock r e | .load r e | .put r e _ => some (r, e)
  | _ => none

/-- The locked entry that a process works on. -/
def inside : Pc n R → Option (Fin n)
  | .load _ e | .update e | .copy e _ => some e
  | .put _ e k => if k = .acquire ∨ k = .drop then none else some e
  | _ => none

/-- The holder whose reference a process gives up. -/
def puts : Pc n R → Option R
  | .put r _ _ => some r
  | _ => none

end Pc

/-- The cache, the inodes in the disk's (cached) blocks, and `freed`, the inodes that `iput` has freed and
the processes that called it. `lock e` is the process that has the sleep lock of `e`, and whose pointer it
has taken it by. -/
structure State (n : Nat) (P R : Type) where
  ent : Fin n → Inode
  lock : Fin n → Option (P × R)
  ptr : R → Option (Fin n)
  pc : P → Pc n R
  disk : Key → Dinode
  freed : List (P × Key) := []

/-- The changes of `sys_link`, `sys_unlink`, `create` and `make_duplicate` that an `iupdate` follows. -/
inductive Change
  | inc
  | dec
  | new (major minor : Int)

def Change.apply (d : Dinode) : Change → Dinode
  | .inc => { d with nlink := d.nlink + 1 }
  | .dec => { d with nlink := d.nlink - 1 }
  | .new major minor => { d with major := major, minor := minor, nlink := 1 }

/-- What a process does next: `next` goes on with the call it is in, and `b` is what `balloc` returns if it
is called. -/
inductive Act (n : Nat) (P R : Type)
  | iget (p : P) (r : R) (k : Key)
  | idup (p : P) (r r' : R)
  | ilock (p : P) (r : R)
  | iput (p : P) (r : R)
  | next (p : P) (b : Nat)
  | change (p : P) (e : Fin n) (c : Change)
  | readi (p : P) (e : Fin n) (off m : Nat)
  | writei (p : P) (e : Fin n) (off m : Nat)
  | iunlock (p : P) (e : Fin n)
  | ialloc (p : P) (k : Key) (type : IType)

/-- The loop of `iget`: the entry of inode `k`, or else the first entry that is not in use. -/
def scan (ent : Fin n → Inode) (k : Key) : List (Fin n) → Option (Fin n) → Fin n ⊕ Option (Fin n)
  | [], empty => .inr empty
  | e :: es, empty =>
    if 0 < (ent e).ref ∧ (ent e).key = k then .inl e
    else scan ent k es (if empty = none ∧ (ent e).ref = 0 then some e else empty)

/-- The part of `bmap` that concerns the inode: `b` is what `balloc` returns. -/
def bmap (d : Dinode) (bn b : Nat) : Option Dinode :=
  if bn < MAXFILE then
    some (if d.addrs (slot bn) = 0 then { d with addrs := update d.addrs (slot bn) b } else d)
  else none  -- panic("bmap: out of range")

def itrunc (d : Dinode) : Dinode := { d with size := 0, addrs := fun _ => 0 }

namespace State

def modEnt (s : State n P R) (e : Fin n) (f : Inode → Inode) : State n P R :=
  { s with ent := update s.ent e (f (s.ent e)) }

def setLock (s : State n P R) (e : Fin n) (o : Option (P × R)) : State n P R :=
  { s with lock := update s.lock e o }

/-- The entry of `e` is written to its inode on disk. -/
def iupdate (s : State n P R) (e : Fin n) : State n P R :=
  { s with disk := update s.disk (s.ent e).key (s.ent e).di }

def holds (s : State n P R) (p : P) (e : Fin n) : Prop := (s.lock e).map Prod.fst = some p

/-- No process uses the pointer of `r`. -/
def unused (s : State n P R) (r : R) : Prop :=
  (∀ q, (s.pc q).on.map Prod.fst ≠ some r) ∧ ∀ e, (s.lock e).map Prod.snd ≠ some r

/-- The pointer of `r` has not been given to `iput`. -/
def kept (s : State n P R) (r : R) : Prop := ∀ q, (s.pc q).puts ≠ some r

variable [DecidableEq P] [DecidableEq R]

def goto (s : State n P R) (p : P) (x : Pc n R) : State n P R := { s with pc := update s.pc p x }

def setPtr (s : State n P R) (r : R) (o : Option (Fin n)) : State n P R := { s with ptr := update s.ptr r o }

instance (s : State n P R) (p : P) (e : Fin n) : Decidable (s.holds p e) := inferInstanceAs (Decidable (_ = _))

instance [Fintype P] (s : State n P R) (r : R) : Decidable (s.unused r) := inferInstanceAs (Decidable (_ ∧ _))

instance [Fintype P] (s : State n P R) (r : R) : Decidable (s.kept r) := inferInstanceAs (Decidable (∀ _, _))

end State

variable [DecidableEq P] [DecidableEq R]

def iget (s : State n P R) (r : R) (k : Key) : Option (State n P R) :=
  match scan s.ent k (List.finRange n) none with
  | .inl e => some ((s.modEnt e fun x => { x with ref := x.ref + 1 }).setPtr r (some e))
  | .inr (some e) =>
    some ((s.modEnt e fun x => { x with key := k, ref := 1, valid := false }).setPtr r (some e))
  | .inr none => none  -- panic("iget: no inodes")

def iputNext (s : State n P R) (p : P) (r : R) (e : Fin n) : Stage → Option (State n P R)
  | .acquire => if s.lock e = none then some ((s.setLock e (some (p, r))).goto p (.put r e .test)) else none
  | .test => some (s.goto p (.put r e (if (s.ent e).valid = true ∧ (s.ent e).di.nlink = 0 then .count else .release)))
  | .count => some (s.goto p (.put r e (if (s.ent e).ref = 1 then .trunc else .release)))
  | .trunc => some (((s.modEnt e fun x => { x with di := itrunc x.di }).iupdate e).goto p (.put r e .free))
  | .free =>
    some { ((s.modEnt e fun x => { x with di := { x.di with type := .free } }).iupdate e).goto p (.put r e .clear) with
      freed := s.freed ++ [(p, (s.ent e).key)] }
  | .clear => some ((s.modEnt e fun x => { x with valid := false }).goto p (.put r e .release))
  | .release => some ((s.setLock e none).goto p (.put r e .drop))
  | .drop => some (((s.modEnt e fun x => { x with ref := x.ref - 1 }).setPtr r none).goto p .idle)

/-- The next step of the loop of `readi` or `writei`, and the end of `writei`. -/
def copyNext (s : State n P R) (p : P) (e : Fin n) (c : Copy) (b : Nat) : Option (State n P R) :=
  if 0 < c.left then
    (bmap (s.ent e).di (c.off / BSIZE) b).bind fun d =>
      some ((s.modEnt e fun x => { x with di := d }).goto p (.copy e c.step))
  else if c.write = true ∧ 0 < c.n ∧ (s.ent e).di.size < c.off then
    some ((s.modEnt e fun x => { x with di := { x.di with size := c.off } }).goto p (.update e))
  else some (s.goto p .idle)

/-- A process goes on with its call. -/
def next (s : State n P R) (p : P) (b : Nat) : Option (State n P R) :=
  match s.pc p with
  | .idle => none
  | .lock r e => if s.lock e = none then some ((s.setLock e (some (p, r))).goto p (.load r e)) else none
  | .load _ e =>
    if (s.ent e).valid = true then some (s.goto p .idle)
    else if (s.disk (s.ent e).key).type = .free then none  -- panic("ilock: no type")
    else some ((s.modEnt e fun x => { x with valid := true, di := s.disk x.key }).goto p .idle)
  | .update e => some ((s.iupdate e).goto p .idle)
  | .copy e c => copyNext s p e c b
  | .put r e k => iputNext s p r e k

variable [Fintype P]

/-- A step. In `readi` and `writei`, `off + m < off` says in `uint` that `off + m` is not below `2 ^ 32`. -/
def step (s : State n P R) : Act n P R → Option (State n P R)
  | .iget p r k => if s.pc p = .idle ∧ s.ptr r = none then iget s r k else none
  | .idup p r r' =>
    match s.ptr r with
    | some e =>
      if s.pc p = .idle ∧ s.ptr r' = none ∧ s.kept r then
        some ((s.modEnt e fun x => { x with ref := x.ref + 1 }).setPtr r' (some e))
      else none
    | none => none
  | .ilock p r =>
    match s.ptr r with
    | some e => if s.pc p = .idle ∧ s.kept r ∧ 0 < (s.ent e).ref then some (s.goto p (.lock r e)) else none
    | none => none
  | .iput p r =>
    match s.ptr r with
    | some e => if s.pc p = .idle ∧ s.unused r then some (s.goto p (.put r e .acquire)) else none
    | none => none
  | .next p b => if b ≠ 0 then next s p b else none
  | .change p e c =>
    if s.pc p = .idle ∧ s.holds p e then
      some ((s.modEnt e fun x => { x with di := c.apply x.di }).goto p (.update e))
    else none
  | .readi p e off m =>
    if s.pc p = .idle ∧ s.holds p e ∧ (s.ent e).di.type ≠ .dev then
      let size := (s.ent e).di.size
      if size < off ∨ 2 ^ 32 ≤ off + m then some s
      else some (s.goto p (.copy e { write := false, off := off, left := min m (size - off), n := m }))
    else none
  | .writei p e off m =>
    if s.pc p = .idle ∧ s.holds p e ∧ (s.ent e).di.type ≠ .dev then
      if (s.ent e).di.size < off ∨ 2 ^ 32 ≤ off + m ∨ MAXFILE * BSIZE < off + m then some s
      else some (s.goto p (.copy e { write := true, off := off, left := m, n := m }))
    else none
  | .iunlock p e => if s.pc p = .idle ∧ s.holds p e then some (s.setLock e none) else none
  | .ialloc p k type =>
    if s.pc p = .idle ∧ (s.disk k).type = .free ∧ type ≠ .free then
      some { s with disk := update s.disk k { type := type } }
    else none

/-- The cache after boot, over a disk without holes. -/
def iinit (s : State n P R) : Prop :=
  (∀ k, (s.disk k).type ≠ .free → (s.disk k).NoHoles) ∧ (∀ e, s.ent e = {}) ∧ (∀ e, s.lock e = none) ∧
    (∀ r, s.ptr r = none) ∧ (∀ p, s.pc p = .idle) ∧ s.freed = []

end Xv6.Icache
