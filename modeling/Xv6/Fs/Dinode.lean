/-
The inode as it is on disk, with its block pointers (`struct dinode` of `fs.h`), the arithmetic of the loop of
`readi` and `writei` that goes over a file in pieces, none of which crosses a block, and what a write does to
the bytes of a file.
-/
import Xv6.Base.Bytes
import Xv6.Fs.Disk

namespace Xv6.Fs

def NDIRECT : Nat := 12
def NINDIRECT : Nat := BSIZE / 4

/-- `struct dinode`; `addrs NDIRECT` is the number of the indirect block. -/
structure Dinode where
  type : IType := .free
  major : Int := 0
  minor : Int := 0
  nlink : UInt16 := 0
  size : Nat := 0
  addrs : Fin (NDIRECT + 1) → Nat := fun _ => 0
  deriving DecidableEq

/-- The pointer of the inode that block `bn` of the file is found by. -/
def slot (bn : Nat) : Fin (NDIRECT + 1) := ⟨min bn NDIRECT, Nat.lt_succ_of_le (min_le_right bn NDIRECT)⟩

/-- The number of blocks of a file of `size` bytes. -/
def nblocks (size : Nat) : Nat := (size + (BSIZE - 1)) / BSIZE

/-- The bytes that the loop of `readi` and `writei` copies at once. -/
def chunk (off left : Nat) : Nat := min left (BSIZE - off % BSIZE)

theorem nblocks_zero : nblocks 0 = 0 := by decide

theorem nblocks_mono {a b : Nat} (h : a ≤ b) : nblocks a ≤ nblocks b := by
  unfold nblocks BSIZE; omega

theorem chunk_le (off left : Nat) : chunk off left ≤ left := min_le_left _ _

variable {left off : Nat} {data : List UInt8} {size : Nat}

theorem chunk_pos (h : 0 < left) : 0 < chunk off left := by
  unfold chunk BSIZE; omega

theorem nblocks_chunk (h : 0 < left) : nblocks (off + chunk off left) = off / BSIZE + 1 := by
  unfold nblocks chunk BSIZE; omega

theorem lt_of_nblocks_le (h : nblocks size ≤ off / BSIZE) (hl : 0 < left) :
    size < off + chunk off left := by
  unfold nblocks chunk BSIZE at *
  omega

theorem div_lt_nblocks (h : off < size) : off / BSIZE < nblocks size := by
  unfold nblocks BSIZE; omega

theorem toList_chunk {f g : Nat → UInt8} (n : Nat) (h : ∀ k, k / BSIZE = off / BSIZE → g k = f (k % BSIZE)) :
    Base.toList f (off % BSIZE) (chunk off n) ++ Base.toList g (off + chunk off n) (n - chunk off n) =
      Base.toList g off n := by
  have hhead : Base.toList f (off % BSIZE) (chunk off n) = Base.toList g off (chunk off n) := by
    refine Base.toList_congr fun j hj => ?_
    have h1 : (off + j) / BSIZE = off / BSIZE := by unfold chunk BSIZE at *; omega
    have h2 : (off + j) % BSIZE = off % BSIZE + j := by unfold chunk BSIZE at *; omega
    rw [h _ h1, h2]
  rw [hhead, ← Base.toList_add, Nat.add_sub_cancel' (chunk_le off n)]

theorem length_writeData {bytes : List UInt8} (h : off ≤ data.length) :
    (writeData data off bytes).length = max data.length (off + bytes.length) := by
  simp only [writeData, List.length_append, List.length_take, List.length_drop]
  omega

/-- No block of the file is missing, as far as the inode's own pointers say. -/
def Dinode.NoHoles (d : Dinode) : Prop := ∀ bn < nblocks d.size, d.addrs (slot bn) ≠ 0

end Xv6.Fs
