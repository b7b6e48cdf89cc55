/-
The system calls of the file system as programs over its operations: `fs.c` from the inode layer
up to path names, the calls of `sysfile.c`, reading, writing and closing of `file.c`, and
`make_duplicate`. Paths are byte strings without NUL. A call that meets a `panic` of the source
stops there.
-/
import Xv6.Fs.Disk
import Xv6.Base.Pool

namespace Xv6.Fs

open Base

/-- One operation. -/
abbrev op (o : Op) : M o.Ret := Prog.call o

/-! ## Path elements -/

def slash : UInt8 := 47
def dot : Name := [46]
def dotdot : Name := [46, 46]

/-- `skipelem`: the next element, cut to `DIRSIZ` bytes, and the path behind it without leading
slashes. -/
def skipelem (path : List UInt8) : Option (Name × List UInt8) :=
  match path.dropWhile (· = slash) with
  | [] => none
  | c :: cs =>
    some (((c :: cs).takeWhile (· ≠ slash)).take DIRSIZ,
      ((c :: cs).dropWhile (· ≠ slash)).dropWhile (· = slash))

/-- The elements `namex` takes one after the other; an element leaves a shorter path. -/
def elemsLoop : Nat → List UInt8 → List Name
  | 0, _ => []
  | fuel + 1, path =>
    match skipelem path with
    | none => []
    | some (name, rest) => name :: elemsLoop fuel rest

def elems (path : List UInt8) : List Name := elemsLoop path.length path

/-! ## Inodes -/

def stat (i : Inum) : M Inode := op (.stat i)

def ilock (i : Inum) : M Unit := do
  op (.acquire i false)
  op (.load i)

def iunlock (i : Inum) : M Unit := op (.release i false)

def iput (i : Inum) : M Unit := do
  op (.acquire i true)
  let _ ← op (.iputFree i)
  op (.release i true)
  op (.putRef i)

def iunlockput (i : Inum) : M Unit := do
  iunlock i
  iput i

/-- The scan of `ialloc` over the inodes from `i` on, `n` of them left. -/
def iallocFrom (type : IType) : Nat → Inum → M Inum
  | 0, _ => .op .panic Empty.elim
  | n + 1, i => do
    let found : Bool ← op (.iallocTry i type)
    if found then do
      op (.iget i)
      return i
    else iallocFrom type n (i + 1)

def ialloc (type : IType) : M Inum := do
  let n : Nat ← op .ninodes
  iallocFrom type (n - 1) 1

/-! ## Directories and paths -/

def dirlookup (d : Inum) (name : Name) : M (Option (Nat × Inum)) := do
  let r : Option (Nat × Inum) ← op (.dirFind d name)
  match r with
  | none => return none
  | some (off, i) => do
    op (.iget i)
    return some (off, i)

def dirlink (d : Inum) (name : Name) (i : Inum) : M Int := do
  match ← dirlookup d name with
  | some (_, j) => do
    iput j
    return -1
  | none => do
    op (.addEnt d name i)
    return 0

/-- The loop of `namex` with the elements still to come. -/
def namexLoop (parent : Bool) : Inum → List Name → M (Option (Inum × Name))
  | ip, [] =>
    if parent then do
      iput ip
      return none
    else return some (ip, [])
  | ip, name :: rest => do
    ilock ip
    if (← stat ip).type ≠ .dir then do
      iunlockput ip
      return none
    else if parent = true ∧ rest = [] then do
      -- stop one level early
      iunlock ip
      return some (ip, name)
    else
      match ← dirlookup ip name with
      | none => do
        iunlockput ip
        return none
      | some (_, next) => do
        iunlockput ip
        namexLoop parent next rest

/-- The inode `namex` starts from. -/
def start (path : List UInt8) : M Inum :=
  if path.head? = some slash then do
    op (.iget ROOTINO)
    return ROOTINO
  else op .idupCwd

def namex (parent : Bool) (path : List UInt8) : M (Option (Inum × Name)) := do
  let ip ← start path
  namexLoop parent ip (elems path)

def namei (path : List UInt8) : M (Option Inum) := do
  let r ← namex false path
  return r.map Prod.fst

def nameiparent (path : List UInt8) : M (Option (Inum × Name)) := namex true path

/-! ## Calls -/

def endOp : M Unit := do
  let last : Bool ← op .endOp
  if last then op .commit else return ()

/-- `end_op` and the return. -/
def finish (r : Int) : M Int := do
  endOp
  return r

/-- `dirlink` where the caller panics on an error. -/
def mustDirlink (d : Inum) (name : Name) (i : Inum) : M Unit := do
  if (← dirlink d name i) < 0 then .op .panic Empty.elim else return ()

def linkBad (ip : Inum) : M Int := do
  ilock ip
  op (.addNlink ip (-1))
  iunlockput ip
  finish (-1)

def sysLink (old new : List UInt8) : M Int := do
  op .beginOp
  match ← namei old with
  | none => finish (-1)
  | some ip => do
    ilock ip
    if (← stat ip).type = .dir then do
      iunlockput ip
      finish (-1)
    else do
      op (.addNlink ip 1)
      iunlock ip
      match ← nameiparent new with
      | none => linkBad ip
      | some (dp, name) => do
        ilock dp
        if (← dirlink dp name ip) < 0 then do
          iunlockput dp
          linkBad ip
        else do
          iunlockput dp
          iput ip
          finish 0

/-- `isdirempty`: nothing but `.` and `..`. -/
def isdirempty (dp : Inode) : Bool := (dp.ents.drop 2).all fun e => e.inum = 0

def unlinkBad (dp : Inum) : M Int := do
  iunlockput dp
  finish (-1)

/-- `sys_unlink` after the write of the directory. -/
def unlinkDone (dp ip : Inum) : M Int := do
  iunlockput dp
  op (.addNlink ip (-1))
  iunlockput ip
  finish 0

/-- `sys_unlink` from the lock of the inode it unlinks on. -/
def unlinkEnt (dp : Inum) (off : Nat) (ip : Inum) : M Int := do
  ilock ip
  let st ← stat ip
  if st.nlink < 1 then .op .panic Empty.elim
  else if st.type = .dir ∧ isdirempty st = false then do
    iunlockput ip
    unlinkBad dp
  else do
    op (.clearEnt dp off)
    if st.type = .dir then do
      op (.addNlink dp (-1))
      unlinkDone dp ip
    else unlinkDone dp ip

def sysUnlink (path : List UInt8) : M Int := do
  op .beginOp
  match ← nameiparent path with
  | none => finish (-1)
  | some (dp, name) => do
    ilock dp
    if name = dot ∨ name = dotdot then unlinkBad dp
    else
      match ← dirlookup dp name with
      | none => unlinkBad dp
      | some (off, ip) => unlinkEnt dp off ip

/-- The entries `.` and `..` of a new directory. -/
def createDots (dp ip : Inum) : M Unit := do
  op (.addNlink dp 1)
  mustDirlink ip dot ip
  mustDirlink ip dotdot dp

/-- The entry of the new inode in its directory. -/
def createLink (dp : Inum) (name : Name) (ip : Inum) : M (Option Inum) := do
  mustDirlink dp name ip
  iunlockput dp
  return some ip

/-- `create` of a name that is not there. -/
def createNew (dp : Inum) (name : Name) (type : IType) (major minor : Int) : M (Option Inum) := do
  let ip ← ialloc type
  ilock ip
  op (.initInode ip major minor)
  if type = .dir then do
    createDots dp ip
    createLink dp name ip
  else createLink dp name ip

def create (path : List UInt8) (type : IType) (major minor : Int) : M (Option Inum) := do
  match ← nameiparent path with
  | none => return none
  | some (dp, name) => do
    ilock dp
    match ← dirlookup dp name with
    | none => createNew dp name type major minor
    | some (_, ip) => do
      iunlockput dp
      ilock ip
      if type = .file ∧ (← stat ip).type = .file then return some ip
      else do
        iunlockput ip
        return none

/-- `sys_open` of a path that is not to be created. -/
def openPath (path : List UInt8) (omode : UInt32) : M (Option Inum) := do
  match ← namei path with
  | none => return none
  | some ip => do
    ilock ip
    if (← stat ip).type = .dir ∧ omode ≠ O_RDONLY then do
      iunlockput ip
      return none
    else return some ip

/-- The failing exit of `sys_open`. -/
def openBad (ip : Inum) : M Int := do
  iunlockput ip
  finish (-1)

/-- `sys_open` with the inode locked. -/
def openFile (ip : Inum) (omode : UInt32) : M Int := do
  let f : Bool ← op .filealloc
  if f then do
    let fd : Option (Fin NOFILE) ← op .fdalloc
    match fd with
    | none => do
      op .fileFree
      openBad ip
    | some fd => do
      iunlock ip
      endOp
      op (.setFile fd ip (omode &&& O_WRONLY = 0) (omode &&& O_WRONLY ≠ 0 ∨ omode &&& O_RDWR ≠ 0))
      return fd.val
  else openBad ip

/-- The inode `sys_open` opens, locked. -/
def openInode (path : List UInt8) (omode : UInt32) : M (Option Inum) :=
  if omode &&& O_CREATE ≠ 0 then create path .file 0 0 else openPath path omode

def sysOpen (path : List UInt8) (omode : UInt32) : M Int := do
  op .beginOp
  match ← openInode path omode with
  | none => finish (-1)
  | some ip => openFile ip omode

/-- `sys_mkdir` and `sys_mknod`. -/
def sysMake (path : List UInt8) (type : IType) (major minor : Int) : M Int := do
  op .beginOp
  match ← create path type major minor with
  | none => finish (-1)
  | some ip => do
    iunlockput ip
    finish 0

def sysMkdir (path : List UInt8) : M Int := sysMake path .dir 0 0

def sysMknod (path : List UInt8) (major minor : Int) : M Int := sysMake path .dev major minor

/-- `curproc->cwd` is assigned before the old directory is put: no other process reads it. -/
def sysChdir (path : List UInt8) : M Int := do
  op .beginOp
  match ← namei path with
  | none => finish (-1)
  | some ip => do
    ilock ip
    if (← stat ip).type ≠ .dir then do
      iunlockput ip
      finish (-1)
    else do
      iunlock ip
      let old : Nat ← op (.swapCwd ip)
      iput old
      finish 0

/-! ## Files -/

def CONSOLE : Int := 1

/-- `consoleread`, without the inode's lock while it waits for input. -/
def consoleread (ip : Inum) (n : Nat) : M Int := do
  iunlock ip
  let r : Int ← op (.console n)
  ilock ip
  return r

def consolewrite (ip : Inum) (n : Nat) : M Int := do
  iunlock ip
  ilock ip
  return n

/-- `readi` and `writei` of a device go through `devsw`, which has the console only. -/
def devsw (major : Int) (f : M Int) : M Int := if major = CONSOLE then f else return -1

/-- `f->off += r` after a read or write of `r > 0` bytes at `off`. -/
def advance (fd : Fin NOFILE) (off : Nat) (r : Int) : M Unit :=
  if 0 < r then op (.setOff fd (off + r.toNat)) else return ()

def fileread (fd : Fin NOFILE) (n : Nat) : M Int := do
  let f : Option File ← op (.getFile fd)
  match f with
  | none => return -1
  | some f =>
    if f.readable = false then return -1
    else
      match f.ip with
      | none => .op .panic Empty.elim
      | some ip => do
        ilock ip
        let st ← stat ip
        if st.type = .dev then do
          let r ← devsw st.major (consoleread ip n)
          advance fd f.off r
          iunlock ip
          return r
        else do
          let r : Option (List UInt8) ← op (.readi ip f.off n)
          match r with
          | none => do
            iunlock ip
            return -1
          | some bytes => do
            advance fd f.off bytes.length
            iunlock ip
            return bytes.length

/-- The bytes `filewrite` writes in one transaction at most. -/
def maxWrite : Nat := (MAXOPBLOCKS - 1 - 1 - 2) / 2 * 512

/-- `writei` of `filewrite`, negative on an error. -/
def writeChunk (ip : Inum) (off : Nat) (bytes : List UInt8) : M Int := do
  let st ← stat ip
  if st.type = .dev then devsw st.major (consolewrite ip bytes.length)
  else do
    let r : Option Nat ← op (.writei ip off bytes)
    return match r with
      | none => -1
      | some n => n

/-- The transaction of one round of `filewrite`. -/
def writeRound (fd : Fin NOFILE) (ip : Inum) (off : Nat) (bytes : List UInt8) : M Int := do
  op .beginOp
  ilock ip
  let r ← writeChunk ip off bytes
  advance fd off r
  iunlock ip
  endOp
  return r

/-- The loop of `filewrite`, with at most `rounds` rounds left. -/
def writeLoop (fd : Fin NOFILE) (ip : Inum) : Nat → Nat → List UInt8 → M Bool
  | 0, _, bytes => return bytes = []
  | rounds + 1, off, bytes =>
    if bytes = [] then return true
    else do
      let chunk := bytes.take maxWrite
      let r ← writeRound fd ip off chunk
      if r < 0 then return false
      else if r ≠ chunk.length then .op .panic Empty.elim
      else writeLoop fd ip rounds (off + chunk.length) (bytes.drop maxWrite)

def filewrite (fd : Fin NOFILE) (bytes : List UInt8) : M Int := do
  let f : Option File ← op (.getFile fd)
  match f with
  | none => return -1
  | some f =>
    if f.writable = false then return -1
    else
      match f.ip with
      | none => .op .panic Empty.elim
      | some ip => do
        if ← writeLoop fd ip bytes.length f.off bytes then return bytes.length else return -1

def sysClose (fd : Fin NOFILE) : M Int := do
  let r : Option (Option Inum) ← op (.takeFile fd)
  match r with
  | none => return -1
  | some none => return 0
  | some (some ip) => do
    op .beginOp
    iput ip
    finish 0

/-! ## make_duplicate -/

/-- The suffix `_copy`. -/
def suf : List UInt8 := [95, 99, 111, 112, 121]

/-- An exit of the copy loop, outside the transaction. -/
def copyDone (sip dip : Inum) (r : Int) : M Int := do
  iunlockput sip
  iput dip
  return r

/-- The copy loop, with at most `rounds` rounds left: `off` is both `off` and `doff`. -/
def copyLoop (sip dip : Inum) : Nat → Nat → M Int
  | 0, _ => copyDone sip dip 0
  | rounds + 1, off => do
    let size := (← stat sip).size
    if size ≤ off then copyDone sip dip 0
    else do
      let r : Option (List UInt8) ← op (.readi sip off (min (size - off) BSIZE))
      match r with
      | none => copyDone sip dip 1
      | some [] => copyDone sip dip 1
      | some (b :: bs) => do
        op .beginOp
        ilock dip
        let w : Option Nat ← op (.writei dip off (b :: bs))
        iunlock dip
        endOp
        if w ≠ some (b :: bs).length then copyDone sip dip 1
        else copyLoop sip dip rounds (off + (b :: bs).length)

/-- The exits of `make_duplicate` inside its transaction. -/
def dupBad (sip : Inum) : M Int := do
  iunlockput sip
  finish 1

/-- `make_duplicate` from the allocation of the copy on. -/
def dupNew (sip dp : Inum) (name : Name) : M Int := do
  let dip ← ialloc .file
  ilock dip
  op (.initInode dip 0 0)
  mustDirlink dp name dip
  iunlockput dp
  op (.carry [sip, dip])
  iunlock dip
  endOp
  -- a round copies a byte or more, and the size of the locked source does not change
  let size := (← stat sip).size
  copyLoop sip dip (size + 1) 0

/-- `make_duplicate` with the source locked. -/
def dupFile (sip : Inum) (dst : List UInt8) : M Int := do
  match ← nameiparent dst with
  | none => dupBad sip
  | some (dp, name) => do
    ilock dp
    match ← dirlookup dp name with
    | some (_, tmp) => do
      iunlockput dp
      iput tmp
      dupBad sip
    | none => dupNew sip dp name

def makeDuplicate (src : List UInt8) : M Int :=
  if 128 ≤ src.length + suf.length then return 1
  else do
    op .beginOp
    match ← namei src with
    | none => finish (-1)
    | some sip => do
      ilock sip
      if (← stat sip).type ≠ .file then dupBad sip
      else dupFile sip (src ++ suf)

/-! ## The processes -/

inductive Call
  | sysLink (old new : List UInt8)
  | sysUnlink (path : List UInt8)
  | sysOpen (path : List UInt8) (omode : UInt32)
  | sysMkdir (path : List UInt8)
  | sysMknod (path : List UInt8) (major minor : Int)
  | sysChdir (path : List UInt8)
  | fileread (fd : Fin NOFILE) (n : Nat)
  | filewrite (fd : Fin NOFILE) (bytes : List UInt8)
  | sysClose (fd : Fin NOFILE)
  | makeDuplicate (src : List UInt8)
  deriving DecidableEq, Repr

def Call.body : Call → M Int
  | .sysLink old new => Fs.sysLink old new
  | .sysUnlink path => Fs.sysUnlink path
  | .sysOpen path omode => Fs.sysOpen path omode
  | .sysMkdir path => Fs.sysMkdir path
  | .sysMknod path major minor => Fs.sysMknod path major minor
  | .sysChdir path => Fs.sysChdir path
  | .fileread fd n => Fs.fileread fd n
  | .filewrite fd bytes => Fs.filewrite fd bytes
  | .sysClose fd => Fs.sysClose fd
  | .makeDuplicate src => Fs.makeDuplicate src

/-- `begin_op` sleeps while the log has no room, `acquiresleep` while the lock is taken. -/
def waits {N : Nat} (s : State N) : Op → Bool
  | .beginOp => !s.admits
  | .acquire i put => (put || 0 < (s.cache i).ref) && (s.cache i).lock.isSome
  | _ => false

abbrev Sys (N : Nat) := Pool (Fin N) (State N) Call Op Op.Ret Int

/-- The file system with `N` processes; the run decides the number of new blocks in the log and what
the console answers. -/
def kernel (N : Nat) : Kernel (Fin N) (State N) Nat Call Op Op.Ret Int where
  exec := exec
  waits := waits
  body := Call.body

end Xv6.Fs
