/-
The file system between its system calls and its locks: inodes, the inode cache with its sleep
locks, the log's admission test, descriptors and current directories, and the atomic operations
the system calls are made of. An operation is atomic because it runs under `icache.lock`,
`log.lock` or the lock inside a sleep lock, or because it works on an inode whose sleep lock its
caller holds. `exec` answers an operation, and is `none` where the caller has to wait or the kernel
panics.

The inode cache is write-through, so an inode has one copy of its fields here; `valid` says that
the cache has it. An inode number fits the `ushort` of a directory entry, and `nlink` does not
overflow: a disk of `FSSIZE` blocks has room for fewer than 2^15 entries. Blocks are not modelled:
an operation that writes adds as many blocks to the log as the run says.
-/
import Xv6.Base.Prog
import Mathlib.Algebra.GroupWithZero.Nat
import Mathlib.Data.Fintype.Basic

namespace Xv6.Fs

open Base Function

/-! ## Data -/

/-- An inode number; 0 is none. -/
abbrev Inum := Nat

/-- The name in a directory entry: at most `DIRSIZ` bytes, without NUL. -/
abbrev Name := List UInt8

def DIRSIZ : Nat := 14
def ROOTINO : Inum := 1
def NINODE : Nat := 50
def NFILE : Nat := 100
def NOFILE : Nat := 16
instance : NeZero NOFILE := ⟨by decide⟩
def BSIZE : Nat := 512
def MAXFILE : Nat := 12 + 512 / 4
def MAXOPBLOCKS : Nat := 10
def LOGSIZE : Nat := MAXOPBLOCKS * 3

/-- `nlog` of `mkfs.c`. -/
def nlog : Nat := LOGSIZE

def O_RDONLY : UInt32 := 0x000
def O_WRONLY : UInt32 := 0x001
def O_RDWR : UInt32 := 0x002
def O_CREATE : UInt32 := 0x200

/-- The type of an inode; `free` is 0. -/
inductive IType
  | free | dir | file | dev
  deriving DecidableEq, Repr

structure Dirent where
  inum : Inum := 0
  name : Name := []
  deriving DecidableEq, Repr

/-- `struct dinode`, with the entries of a directory or the bytes of a file as its contents. -/
structure Inode where
  type : IType := .free
  major : Int := 0
  minor : Int := 0
  nlink : Int := 0
  ents : List Dirent := []
  data : List UInt8 := []
  deriving DecidableEq, Repr

def Dirent.bytes (e : Dirent) : List UInt8 :=
  [UInt8.ofNat e.inum, UInt8.ofNat (e.inum / 256)] ++ e.name ++ List.replicate (DIRSIZ - e.name.length) 0

/-- What `readi` reads. -/
def Inode.bytes (ip : Inode) : List UInt8 :=
  match ip.type with
  | .dir => ip.ents.flatMap Dirent.bytes
  | _ => ip.data

def Inode.size (ip : Inode) : Nat := ip.bytes.length

/-- The cache entry of an inode: free when `ref` is 0. -/
structure Entry (N : Nat) where
  ref : Nat := 0
  valid : Bool := false
  lock : Option (Fin N) := none
  deriving DecidableEq, Repr

/-- `struct log`: `size` is the superblock's `nlog`, `n` is `lh.n`. -/
structure Log where
  size : Nat := LOGSIZE
  outstanding : Nat := 0
  committing : Bool := false
  n : Nat := 0
  deriving DecidableEq, Repr

/-- An open file, of type `FD_INODE` once it has an inode. -/
structure File where
  ip : Option Inum := none
  off : Nat := 0
  readable : Bool := false
  writable : Bool := false
  deriving DecidableEq, Repr

/-- The file system with `N` processes. `used` counts the cache entries in use and `nfile` the open
files; `inOp` marks the processes between `begin_op` and `end_op`, and `carried` the inodes that a
`make_duplicate` has taken out of its transaction and has still to put. -/
structure State (N : Nat) where
  ino : Inum → Inode
  cache : Inum → Entry N
  used : Nat
  ninodes : Nat
  log : Log
  nfile : Nat
  ofile : Fin N → Fin NOFILE → Option File
  cwd : Fin N → Inum
  inOp : Fin N → Bool
  carried : Fin N → List Inum

/-! ## Operations -/

/-- The operations. `put` tells an `iput` from `ilock` and `iunlock`; `carry` only marks where
`make_duplicate` leaves its transaction. -/
inductive Op
  | beginOp
  | endOp
  | commit
  | acquire (i : Inum) (put : Bool)
  | load (i : Inum)
  | release (i : Inum) (put : Bool)
  | iget (i : Inum)
  | idupCwd
  | iputFree (i : Inum)
  | putRef (i : Inum)
  | stat (i : Inum)
  | dirFind (d : Inum) (name : Name)
  | addEnt (d : Inum) (name : Name) (i : Inum)
  | clearEnt (d : Inum) (off : Nat)
  | addNlink (i : Inum) (delta : Int)
  | initInode (i : Inum) (major minor : Int)
  | iallocTry (i : Inum) (type : IType)
  | ninodes
  | readi (i : Inum) (off n : Nat)
  | writei (i : Inum) (off : Nat) (bytes : List UInt8)
  | console (n : Nat)
  | filealloc
  | fileFree
  | fdalloc
  | getFile (fd : Fin NOFILE)
  | setFile (fd : Fin NOFILE) (i : Inum) (readable writable : Bool)
  | setOff (fd : Fin NOFILE) (off : Nat)
  | takeFile (fd : Fin NOFILE)
  | swapCwd (i : Inum)
  | carry (is : List Inum)
  | panic
  deriving DecidableEq, Repr

@[reducible] def Op.Ret : Op → Type
  | .endOp | .iputFree _ | .iallocTry _ _ | .filealloc => Bool
  | .idupCwd | .ninodes | .swapCwd _ => Nat
  | .stat _ => Inode
  | .dirFind _ _ => Option (Nat × Inum)
  | .readi _ _ _ => Option (List UInt8)
  | .writei _ _ _ => Option Nat
  | .console _ => Int
  | .fdalloc => Option (Fin NOFILE)
  | .getFile _ => Option File
  | .takeFile _ => Option (Option Inum)
  | .panic => Empty
  | _ => Unit

/-- The programs of the file system. -/
abbrev M := Prog Op Op.Ret

variable {N : Nat}

namespace State

def modIno (s : State N) (i : Inum) (f : Inode → Inode) : State N := { s with ino := update s.ino i (f (s.ino i)) }

def modEntry (s : State N) (i : Inum) (f : Entry N → Entry N) : State N :=
  { s with cache := update s.cache i (f (s.cache i)) }

def setFile (s : State N) (t : Fin N) (fd : Fin NOFILE) (f : Option File) : State N :=
  { s with ofile := update s.ofile t (update (s.ofile t) fd f) }

/-- `begin_op` goes on: the log is not committing, and one more operation fits in it. -/
def admits (s : State N) : Bool := !s.log.committing && s.log.n + (s.log.outstanding + 1) * MAXOPBLOCKS ≤ LOGSIZE

/-- `log_write` on blocks of which `x` are new to the log. -/
def logWrite (s : State N) (x : Nat) : Option (State N) :=
  if s.log.outstanding < 1 then none  -- panic("log_write outside of trans")
  else if LOGSIZE ≤ s.log.n ∨ s.log.size - 1 ≤ s.log.n ∨ LOGSIZE < s.log.n + x ∨ s.log.size - 1 < s.log.n + x then
    none  -- panic("too big a transaction")
  else some { s with log := { s.log with n := s.log.n + x } }

/-- Another reference to an inode: of its entry, or of a free entry given to it. -/
def iget (s : State N) (i : Inum) : Option (State N) :=
  if 0 < (s.cache i).ref then some (s.modEntry i fun e => { e with ref := e.ref + 1 })
  else if s.used < NINODE then
    some { s.modEntry i fun e => { e with ref := 1, valid := false } with used := s.used + 1 }
  else none  -- panic("iget: no inodes")

def putRef (s : State N) (i : Inum) : State N :=
  { s.modEntry i fun e => { e with ref := e.ref - 1 } with
    used := if (s.cache i).ref = 1 then s.used - 1 else s.used }

end State

/-- The scan of `dirlookup`: the place of the first live entry of that name, and its inode. -/
def findEnt (name : Name) : List Dirent → Nat → Option (Nat × Inum)
  | [], _ => none
  | e :: es, off => if e.inum ≠ 0 ∧ e.name = name then some (off, e.inum) else findEnt name es (off + 1)

/-- The write of `dirlink`: into the first free entry, or behind the last. -/
def putEnt (e : Dirent) : List Dirent → List Dirent
  | [] => [e]
  | x :: xs => if x.inum = 0 then e :: xs else x :: putEnt e xs

/-- `writei` on a regular file. -/
def writeData (data : List UInt8) (off : Nat) (bytes : List UInt8) : List UInt8 :=
  data.take off ++ bytes ++ data.drop (off + bytes.length)

/-- The lowest free descriptor. -/
def freeFd (ofile : Fin NOFILE → Option File) : Option (Fin NOFILE) :=
  (List.finRange NOFILE).find? fun fd => (ofile fd).isNone

/-- The answer to an operation of process `t`. -/
def exec (t : Fin N) (s : State N) (x : Nat) : (o : Op) → Option (o.Ret × State N)
  | .beginOp =>
    if s.admits then
      some ((), { s with log := { s.log with outstanding := s.log.outstanding + 1 }
                         inOp := update s.inOp t true })
    else none
  | .endOp =>
    if s.log.committing then none  -- panic("log.committing")
    else
      let last : Bool := s.log.outstanding - 1 = 0
      some (last, { s with log := { s.log with outstanding := s.log.outstanding - 1, committing := last }
                           inOp := update s.inOp t false })
  | .commit => some ((), { s with log := { s.log with n := 0, committing := false } })
  | .acquire i put =>
    if (put = true ∨ 0 < (s.cache i).ref) ∧ (s.cache i).lock = none then
      some ((), s.modEntry i fun e => { e with lock := some t })
    else none
  | .load i =>
    if (s.cache i).valid then some ((), s)
    else if (s.ino i).type = .free then none  -- panic("ilock: no type")
    else some ((), s.modEntry i fun e => { e with valid := true })
  | .release i put =>
    if (put = true ∨ 0 < (s.cache i).ref) ∧ (s.cache i).lock = some t then
      some ((), s.modEntry i fun e => { e with lock := none })
    else none
  | .iget i => (s.iget i).map fun s => ((), s)
  | .idupCwd => some (s.cwd t, s.modEntry (s.cwd t) fun e => { e with ref := e.ref + 1 })
  | .iputFree i =>
    -- the entry is locked, so only `ref` could change between the test and the truncation
    if (s.cache i).valid = true ∧ (s.ino i).nlink = 0 ∧ (s.cache i).ref = 1 then
      (s.logWrite x).map fun s =>
        (true, (s.modIno i fun ip => { ip with type := .free, ents := [], data := [] }).modEntry i fun e =>
          { e with valid := false })
    else some (false, s)
  | .putRef i => some ((), { s.putRef i with carried := update s.carried t ((s.carried t).erase i) })
  | .stat i => some (s.ino i, s)
  | .dirFind d name =>
    if (s.ino d).type = .dir then some (findEnt name (s.ino d).ents 0, s)
    else none  -- panic("dirlookup not DIR")
  | .addEnt d name i =>
    let ents := putEnt ⟨i, name⟩ (s.ino d).ents
    if ents.length * 16 ≤ MAXFILE * BSIZE then
      (s.logWrite x).map fun s => ((), s.modIno d fun dp => { dp with ents := ents })
    else none  -- panic("dirlink")
  | .clearEnt d off =>
    (s.logWrite x).map fun s => ((), s.modIno d fun dp => { dp with ents := dp.ents.set off {} })
  | .addNlink i delta => (s.logWrite x).map fun s => ((), s.modIno i fun ip => { ip with nlink := ip.nlink + delta })
  | .initInode i major minor =>
    (s.logWrite x).map fun s => ((), s.modIno i fun ip => { ip with major := major, minor := minor, nlink := 1 })
  | .iallocTry i type =>
    if (s.ino i).type = .free then (s.logWrite x).map fun s => (true, s.modIno i fun _ => { type := type })
    else some (false, s)
  | .ninodes => some (s.ninodes, s)
  | .readi i off n =>
    if (s.ino i).size < off then some (none, s) else some (some (((s.ino i).bytes.drop off).take n), s)
  | .writei i off bytes =>
    if (s.ino i).type ≠ .file then none  -- no directory is open for writing
    else if (s.ino i).size < off ∨ MAXFILE * BSIZE < off + bytes.length then some (none, s)
    else
      (s.logWrite x).map fun s =>
        (some bytes.length, s.modIno i fun ip => { ip with data := writeData ip.data off bytes })
  | .console n => some ((if x ≤ n then (x : Int) else -1 : Int), s)
  | .filealloc => if s.nfile < NFILE then some (true, { s with nfile := s.nfile + 1 }) else some (false, s)
  | .fileFree => some ((), { s with nfile := s.nfile - 1 })
  | .fdalloc =>
    match freeFd (s.ofile t) with
    | some fd => some (some fd, s.setFile t fd (some {}))
    | none => some (none, s)
  | .getFile fd => some (s.ofile t fd, s)
  | .setFile fd i readable writable =>
    some ((), s.setFile t fd (some { ip := some i, readable := readable, writable := writable }))
  | .setOff fd off => some ((), s.setFile t fd ((s.ofile t fd).map fun f => { f with off := off }))
  | .takeFile fd =>
    match s.ofile t fd with
    | none => some (none, s)
    | some f => some (some f.ip, { s.setFile t fd none with nfile := s.nfile - 1 })
  | .swapCwd i => some (s.cwd t, { s with cwd := update s.cwd t i })
  | .carry is => some ((), { s with carried := update s.carried t is })
  | .panic => none

end Xv6.Fs
