/-
The contents of an inode in the blocks of the disk (`fs.c`, `file.c`): the bitmap, the block map with its indirect
block, reading and writing in pieces of a block, writing in transactions, and the entries of a directory. The inode
is the one that the caller has locked, in memory and on disk; blocks are what the buffer cache gives. Every block that
is changed is put in the header of the log (`log.c`), within a transaction that is not interrupted here. A panic ends
the command, and so does a device, which is not read here.
-/
import Mathlib.Data.Finset.Card
import Xv6.Base.Command
import Xv6.Mkfs.Kernel

namespace Xv6.Content

open Base Fs Function

/-- `struct inode`, as far as its contents go; `addrs NDIRECT` is the indirect block. -/
structure Ip where
  type : IType
  size : Nat
  addrs : Nat → Nat

/-- The blocks of the disk, with the bitmap from `bmapstart` on, an inode in memory and on disk, in block `iblock`, and
the blocks in the header of the log; `lh.n` is their number. -/
structure Vol where
  nblocks : Nat
  bmapstart : Nat
  used : Nat → Bool
  data : Nat → Nat → UInt8
  ip : Ip
  dip : Ip
  iblock : Nat
  lh : Finset Nat

inductive Panic
  | tooBig
  | balloc
  | bmap
  | short
  | notDir
  | lookupRead
  | linkRead
  | link
  | unlink
  | device
  | spin
  deriving DecidableEq, Repr

abbrev M := Cmd Vol Panic

/-! ## Blocks -/

/-- The bits of a block. -/
def BPB : Nat := BSIZE * 8

/-- The block of the bitmap that has the bit of `b`. -/
def Vol.BBLOCK (s : Vol) (b : Nat) : Nat := b / BPB + s.bmapstart

/-- `log_write`; a block that is in the header is not added again. -/
def logWrite (b : Nat) : M Unit := do
  let s ← get
  if LOGSIZE ≤ s.lh.card ∨ nlog - 1 ≤ s.lh.card then throw .tooBig
  else modify fun s => { s with lh := insert b s.lh }

/-- The first block whose bit is clear; `bzero` clears it. -/
def balloc : M Nat := do
  let s ← get
  match (List.range s.nblocks).find? fun b => !s.used b with
  | none => throw .balloc
  | some b => do
    modify fun s => { s with used := update s.used b true }
    logWrite (s.BBLOCK b)
    modify fun s => { s with data := update s.data b fun _ => 0 }
    logWrite b
    pure b

/-- A pointer of the inode, with a new block if it is 0. -/
def pointer (k : Nat) : M Nat := do
  let s ← get
  if s.ip.addrs k = 0 then do
    let addr ← balloc
    modify fun s => { s with ip := { s.ip with addrs := update s.ip.addrs k addr } }
    pure addr
  else pure (s.ip.addrs k)

/-- A word of the indirect block, with a new block if it is 0. -/
def indirect (a j : Nat) : M Nat := do
  let s ← get
  if getLE (s.data a) (4 * j) 4 = 0 then do
    let addr ← balloc
    modify fun s => { s with data := update s.data a (putLE (s.data a) (4 * j) 4 addr) }
    logWrite a
    pure addr
  else pure (getLE (s.data a) (4 * j) 4)

def bmap (bn : Nat) : M Nat :=
  if bn < NDIRECT then pointer bn
  else if bn - NDIRECT < NINDIRECT then do
    let a ← pointer NDIRECT
    indirect a (bn - NDIRECT)
  else throw .bmap

/-! ## Contents -/

/-- The loop of `readi`: the bytes from `off` on, `left` of them. -/
def readLoop : Nat → Nat → Nat → M (List UInt8)
  | 0, _, left => if left = 0 then pure [] else throw .spin
  | n + 1, off, left =>
    if left = 0 then pure []
    else do
      let b ← bmap (off / BSIZE)
      let s ← get
      let rest ← readLoop n (off + chunk off left) (left - chunk off left)
      pure (toList (s.data b) (off % BSIZE) (chunk off left) ++ rest)

/-- The bytes read, none for -1. -/
def readi (off n : Nat) : M (Option (List UInt8)) := do
  let s ← get
  if s.ip.type = .dev then throw .device
  else if s.ip.size < off ∨ add32 off n < off then pure none
  else do
    let n := if s.ip.size < add32 off n then s.ip.size - off else n
    let bytes ← readLoop n off n
    pure (some bytes)

/-- The loop of `writei`; the offset at its end. -/
def writeLoop : Nat → (Nat → UInt8) → Nat → Nat → M Nat
  | 0, _, off, left => if left = 0 then pure off else throw .spin
  | n + 1, src, off, left =>
    if left = 0 then pure off
    else do
      let b ← bmap (off / BSIZE)
      modify fun s => { s with data := update s.data b (paste (s.data b) (off % BSIZE) (chunk off left) src) }
      logWrite b
      writeLoop n (slice src (chunk off left)) (off + chunk off left) (left - chunk off left)

def iupdate : M Unit := do
  let s ← get
  modify fun s => { s with dip := s.ip }
  logWrite s.iblock

/-- The bytes written, none for -1. -/
def writei (src : Nat → UInt8) (off n : Nat) : M (Option Nat) := do
  let s ← get
  if s.ip.type = .dev then throw .device
  else if s.ip.size < off ∨ add32 off n < off then pure none
  else if MAXFILE * BSIZE < add32 off n then pure none
  else do
    let off ← writeLoop n src off n
    let s ← get
    if 0 < n ∧ s.ip.size < off then do
      modify fun s => { s with ip := { s.ip with size := off } }
      iupdate
    pure (some n)

/-! ## `filewrite` -/

/-- `struct file` of an inode. -/
structure File where
  writable : Bool
  off : Nat

/-- No other operation is under way, so the transaction is committed, and the header is empty again. -/
def endOp : M Unit := modify fun s => { s with lh := ∅ }

/-- The loop of `filewrite`, a transaction at a time: how far it got, and the offset of the file. -/
def fileLoop (addr : Nat → UInt8) (n : Int) : Nat → Int → Nat → M (Int × Nat)
  | 0, _, _ => throw .spin
  | k + 1, i, off =>
    if i < n then do
      let n1 := if maxWrite < n - i then (maxWrite : Int) else n - i
      let r ← writei (slice addr i.toNat) off n1.toNat
      endOp
      match r with
      | none => pure (i, off)
      | some r => do
        let off := if 0 < r then add32 off r else off
        if (r : Int) ≠ n1 then throw .short else fileLoop addr n k (i + r) off
    else pure (i, off)

def filewrite (f : File) (addr : Nat → UInt8) (n : Int) : M (Int × File) :=
  if f.writable then do
    let r ← fileLoop addr n (n.toNat + 1) 0 f.off
    pure (if r.1 = n then n else -1, { f with off := r.2 })
  else pure (-1, f)

/-! ## Directories -/

open Mkfs.Kernel (namecmp DIRENT)

/-- An entry of the directory, or the panic of the function that reads it. -/
def readEnt (e : Panic) (off : Nat) : M (Nat → UInt8) := do
  let r ← readi off DIRENT
  if (r.getD []).length ≠ DIRENT then throw e else pure (ofList (r.getD []))

/-- The loop of `dirlookup`: the number in the entry, and where it is. -/
def lookupLoop (name : List UInt8) : Nat → Nat → M (Option (Nat × Nat))
  | 0, _ => throw .spin
  | n + 1, off => do
    let s ← get
    if off < s.ip.size then do
      let de ← readEnt .lookupRead off
      if getLE de 0 2 = 0 then lookupLoop name n (add32 off DIRENT)
      else if namecmp (ofList name) (slice de 2) then pure (some (getLE de 0 2, off))
      else lookupLoop name n (add32 off DIRENT)
    else pure none

def dirlookup (name : List UInt8) : M (Option (Nat × Nat)) := do
  let s ← get
  if s.ip.type ≠ .dir then throw .notDir else lookupLoop name (s.ip.size + 1) 0

/-- The loop of `dirlink`: where the first free entry is, or the end. -/
def freeLoop : Nat → Nat → M Nat
  | 0, _ => throw .spin
  | n + 1, off => do
    let s ← get
    if off < s.ip.size then do
      let de ← readEnt .linkRead off
      if getLE de 0 2 = 0 then pure off else freeLoop n (add32 off DIRENT)
    else pure off

/-- `strncpy` fills the name with zeros, and the number is a `ushort`. -/
def dirent (name : List UInt8) (inum : Nat) : List UInt8 := Dirent.bytes ⟨inum, name.take DIRSIZ⟩

/-- Whether it returned 0. -/
def dirlink (name : List UInt8) (inum : Nat) : M Bool := do
  let r ← dirlookup name
  match r with
  | some _ => pure false
  | none => do
    let s ← get
    let off ← freeLoop (s.ip.size + 1) 0
    let r ← writei (ofList (dirent name inum)) off DIRENT
    if r ≠ some DIRENT then throw .link else pure true

/-- The entry is cleared, as in `sys_unlink`. -/
def unlink (name : List UInt8) : M Bool := do
  let r ← dirlookup name
  match r with
  | none => pure false
  | some (_, off) => do
    let r ← writei (fun _ => 0) off DIRENT
    if r ≠ some DIRENT then throw .unlink else pure true

end Xv6.Content
