/-
The program that makes the disk image (`mkfs.c`). The image is the bytes of a file in sectors; inodes,
indirect blocks and directory entries are bytes in it, numbers least byte first. `iappend` works on a copy
of the inode and finds the block for each piece of the data, taking the next free one where there is none;
the directory's size is rounded at the end and the bitmap written. Host files arrive in the pieces that
`read` returns. A failed assertion or system call ends the program with another status than 0.
-/
import Xv6.Fs.Calls
import Xv6.Fs.Dinode

namespace Xv6.Mkfs

open Base Fs

/-! ## The layout -/

def FSSIZE : Nat := 1000
def NINODES : Nat := 200
/-- `sizeof(struct dinode)`. -/
def DINODE : Nat := 64
def IPB : Nat := BSIZE / DINODE
def nbitmap : Nat := FSSIZE / (BSIZE * 8) + 1
def ninodeblocks : Nat := NINODES / IPB + 1
def nmeta : Nat := 2 + nlog + ninodeblocks + nbitmap
def inodestart : Nat := 2 + nlog
def bmapstart : Nat := 2 + nlog + ninodeblocks

/-- Bytes of a sector, of a struct or of an array. -/
abbrev Buf := Nat → UInt8

/-- The image file: its bytes and its length. -/
structure Img where
  bytes : Nat → UInt8
  len : Nat

/-- `sec * BSIZE`, an unsigned product. -/
def seek (sec : Nat) : Nat := sec * BSIZE % 2 ^ 32

def rsect (img : Img) (sec : Nat) : Option Buf :=
  if seek sec + BSIZE ≤ img.len then some (slice img.bytes (seek sec)) else none

def wsect (img : Img) (sec : Nat) (buf : Buf) : Img :=
  ⟨paste img.bytes (seek sec) BSIZE buf, max img.len (seek sec + BSIZE)⟩

def IBLOCK (i : Nat) : Nat := i / IPB + inodestart

/-- The superblock that `main` fills in. -/
def superblock : Buf :=
  let b := putLE (fun _ => 0) 0 4 FSSIZE
  let b := putLE b 4 4 (FSSIZE - nmeta)
  let b := putLE b 8 4 NINODES
  let b := putLE b 12 4 nlog
  let b := putLE b 16 4 2
  let b := putLE b 20 4 inodestart
  putLE b 24 4 bmapstart

/-! ## Inodes -/

structure St where
  img : Img
  freeinode : Nat
  freeblock : Nat

def winode (img : Img) (inum : Nat) (ip : Buf) : Option Img := do
  let buf ← rsect img (IBLOCK inum)
  some (wsect img (IBLOCK inum) (paste buf (inum % IPB * DINODE) DINODE ip))

def rinode (img : Img) (inum : Nat) : Option Buf := do
  let buf ← rsect img (IBLOCK inum)
  some (slice buf (inum % IPB * DINODE))

/-- Where the fields of a `struct dinode` are. -/
def sizeAt : Nat := 8
def addrAt (k : Nat) : Nat := 12 + 4 * k

def T_DIR : Nat := 1
def T_FILE : Nat := 2

def ialloc (s : St) (type : Nat) : Option (Nat × St) := do
  let inum := s.freeinode
  let din := putLE (putLE (putLE (fun _ => 0) 0 2 type) 6 2 1) sizeAt 4 0
  let img ← winode s.img inum din
  some (inum, { s with img := img, freeinode := inum + 1 })

/-- What the loop of `iappend` works on. -/
structure Work where
  img : Img
  freeblock : Nat
  din : Buf

/-- The block `fbn` of the file, taken from the free ones where there is none yet. -/
def locate (w : Work) (fbn : Nat) : Option (Nat × Work) :=
  if fbn < NDIRECT then
    let w := if getLE w.din (addrAt fbn) 4 = 0 then
        { w with din := putLE w.din (addrAt fbn) 4 w.freeblock, freeblock := w.freeblock + 1 }
      else w
    some (getLE w.din (addrAt fbn) 4, w)
  else do
    let w := if getLE w.din (addrAt NDIRECT) 4 = 0 then
        { w with din := putLE w.din (addrAt NDIRECT) 4 w.freeblock, freeblock := w.freeblock + 1 }
      else w
    let ib := getLE w.din (addrAt NDIRECT) 4
    let indirect ← rsect w.img ib
    if getLE indirect (4 * (fbn - NDIRECT)) 4 = 0 then
      let indirect := putLE indirect (4 * (fbn - NDIRECT)) 4 w.freeblock
      some (getLE indirect (4 * (fbn - NDIRECT)) 4,
        { w with img := wsect w.img ib indirect, freeblock := w.freeblock + 1 })
    else some (getLE indirect (4 * (fbn - NDIRECT)) 4, w)

/-- The loop of `iappend`: `p` is still to be written from `off` on. -/
def appendLoop : Nat → Work → Nat → List UInt8 → Option (Work × Nat)
  | 0, _, _, _ => none
  | f + 1, w, off, p =>
    if p = [] then some (w, off)
    else
      let fbn := off / BSIZE
      if fbn < MAXFILE then do
        let r ← locate w fbn
        let n1 := min p.length ((fbn + 1) * BSIZE - off)
        let buf ← rsect r.2.img r.1
        let img := wsect r.2.img r.1 (paste buf (off - fbn * BSIZE) n1 (ofList p))
        appendLoop f { r.2 with img := img } (off + n1) (p.drop n1)
      else none

def iappend (s : St) (inum : Nat) (p : List UInt8) : Option St := do
  let din ← rinode s.img inum
  let r ← appendLoop (p.length + 1) ⟨s.img, s.freeblock, din⟩ (getLE din sizeAt 4) p
  let img ← winode r.1.img inum (putLE r.1.din sizeAt 4 r.2)
  some { s with img := img, freeblock := r.1.freeblock }

/-- Bit `i % 8` of byte `i / 8` is set for each `i` below `used`. -/
def bitmap : Nat → Buf
  | 0 => fun _ => 0
  | i + 1 => Function.update (bitmap i) (i / 8) (bitmap i (i / 8) ||| (1 <<< UInt8.ofNat (i % 8)))

def balloc (img : Img) (used : Nat) : Option Img :=
  if used < BSIZE * 8 then some (wsect img bmapstart (bitmap used)) else none

/-! ## `main` -/

/-- A host file: the argument that names it, whether it can be opened, and the pieces `read` returns. -/
structure HostFile where
  arg : List UInt8
  nul : 0 ∉ arg
  opens : Bool
  pieces : List (List UInt8)
  small : ∀ p ∈ pieces, 0 < p.length ∧ p.length ≤ BSIZE

def HostFile.data (f : HostFile) : List UInt8 := f.pieces.flatten

/-- The argument behind a leading `_`. -/
def HostFile.name (f : HostFile) : List UInt8 := if f.arg.head? = some 95 then f.arg.tail else f.arg

/-- `strncpy(de.name, name, DIRSIZ)` into a `struct dirent`. -/
def dirent (inum : Nat) (name : List UInt8) : List UInt8 :=
  [UInt8.ofNat inum, UInt8.ofNat (inum / 256)] ++ (name.take DIRSIZ ++ List.replicate (DIRSIZ - name.length) 0)

def appendAll (inum : Nat) : St → List (List UInt8) → Option St
  | s, [] => some s
  | s, p :: ps => do
    let s ← iappend s inum p
    appendAll inum s ps

def addFile (rootino : Nat) (s : St) (f : HostFile) : Option St :=
  if slash ∈ f.arg ∨ f.opens = false then none
  else do
    let r ← ialloc s T_FILE
    let s ← iappend r.2 rootino (dirent r.1 f.name)
    appendAll r.1 s f.pieces

def addFiles (rootino : Nat) : St → List HostFile → Option St
  | s, [] => some s
  | s, f :: fs => do
    let s ← addFile rootino s f
    addFiles rootino s fs

/-- The image before the first inode: zeros and the superblock. -/
def blank : St :=
  ⟨wsect ⟨fun _ => 0, FSSIZE * BSIZE⟩ 1 superblock, 1, nmeta⟩

/-- The root directory with `.` and `..`. -/
def makeRoot : Option St := do
  let r ← ialloc blank T_DIR
  let s ← iappend r.2 r.1 (dirent r.1 dot)
  iappend s r.1 (dirent r.1 dotdot)

/-- The size of the root directory is rounded up, and the bitmap written. -/
def finish (s : St) : Option St := do
  let din ← rinode s.img ROOTINO
  let off := getLE din sizeAt 4
  let img ← winode s.img ROOTINO (putLE din sizeAt 4 ((off / BSIZE + 1) * BSIZE))
  let img ← balloc img s.freeblock
  some { s with img := img }

def main (files : List HostFile) : Option St := do
  let s ← makeRoot
  let s ← addFiles ROOTINO s files
  finish s

end Xv6.Mkfs
