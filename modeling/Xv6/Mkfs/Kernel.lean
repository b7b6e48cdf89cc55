/-
The kernel's side of the disk format, as far as it only reads (`fs.c`): inodes from the blocks that the
superblock names, the block map, the contents of a file, directories and paths. A block map that meets no
block asks `balloc` for one, and a read that gets there stops; so do panics and the devices.
-/
import Xv6.Fs.Path
import Xv6.Mkfs.Mkfs

namespace Xv6.Mkfs.Kernel

open Base Fs

abbrev Disk := Nat → UInt8

/-- What ends a read: a block would be allocated, a panic, or the inode is a device's. -/
inductive Stop
  | balloc
  | panic
  | device
  deriving DecidableEq, Repr

def bread (disk : Disk) (b : Nat) : Except Stop Buf :=
  if b < FSSIZE then .ok (slice disk (b * BSIZE)) else .error .panic

/-- The inode as `ilock` reads it. -/
def ilock (disk : Disk) (inum : Nat) : Except Stop Buf := do
  let sb ← bread disk 1
  let bp ← bread disk (inum / IPB + getLE sb 20 4)
  let dip := slice bp (inum % IPB * DINODE)
  if getLE dip 0 2 = 0 then .error .panic else .ok dip

def bmap (disk : Disk) (ip : Buf) (bn : Nat) : Except Stop Nat :=
  if bn < NDIRECT then
    let addr := getLE ip (addrAt bn) 4
    if addr = 0 then .error .balloc else .ok addr
  else if bn - NDIRECT < NINDIRECT then
    let addr := getLE ip (addrAt NDIRECT) 4
    if addr = 0 then .error .balloc
    else do
      let bp ← bread disk addr
      let addr := getLE bp (4 * (bn - NDIRECT)) 4
      if addr = 0 then .error .balloc else .ok addr
  else .error .panic

def T_DEV : Nat := 3

/-- The loop of `readi`: `n` bytes from `off` on. -/
def readLoop (disk : Disk) (ip : Buf) : Nat → Nat → Nat → Except Stop (List UInt8)
  | 0, _, _ => .ok []
  | f + 1, off, n =>
    if n = 0 then .ok []
    else do
      let b ← bmap disk ip (off / BSIZE)
      let bp ← bread disk b
      let rest ← readLoop disk ip f (off + chunk off n) (n - chunk off n)
      .ok (toList bp (off % BSIZE) (chunk off n) ++ rest)

/-- The bytes read, or `none` where `readi` returns -1. -/
def readi (disk : Disk) (ip : Buf) (off n : Nat) : Except Stop (Option (List UInt8)) :=
  let size := getLE ip sizeAt 4
  if getLE ip 0 2 = T_DEV then .error .device
  else if size < off ∨ (off + n) % 2 ^ 32 < off then .ok none
  else do
    let n := if size < off + n then size - off else n
    let bytes ← readLoop disk ip n off n
    .ok (some bytes)

/-- `strncmp` says that the strings are equal, from byte `k` on and for at most `n` bytes. -/
def strncmp (p q : Buf) : Nat → Nat → Bool
  | _, 0 => true
  | k, n + 1 => if p k ≠ 0 ∧ p k = q k then strncmp p q (k + 1) n else p k = q k

def namecmp (s t : Buf) : Bool := strncmp s t 0 DIRSIZ

/-- `sizeof(struct dirent)`. -/
def DIRENT : Nat := 16

def dirLoop (disk : Disk) (dp : Buf) (name : Buf) : Nat → Nat → Except Stop (Option Nat)
  | 0, _ => .ok none
  | f + 1, off =>
    if off < getLE dp sizeAt 4 then do
      let r ← readi disk dp off DIRENT
      let de := r.getD []
      if de.length ≠ DIRENT then .error .panic
      else if getLE (ofList de) 0 2 = 0 then dirLoop disk dp name f (off + DIRENT)
      else if namecmp name (slice (ofList de) 2) then .ok (some (getLE (ofList de) 0 2))
      else dirLoop disk dp name f (off + DIRENT)
    else .ok none

def dirlookup (disk : Disk) (dp : Buf) (name : Buf) : Except Stop (Option Nat) :=
  if getLE dp 0 2 ≠ T_DIR then .error .panic else dirLoop disk dp name (getLE dp sizeAt 4 + 1) 0

def namexLoop (disk : Disk) : Nat → Nat → List UInt8 → Except Stop (Option Nat)
  | 0, _, _ => .ok none
  | f + 1, inum, path =>
    match skipelem path with
    | none => .ok (some inum)
    | some (name, rest) => do
      let ip ← ilock disk inum
      if getLE ip 0 2 ≠ T_DIR then .ok none
      else do
        let next ← dirlookup disk ip (ofList name)
        match next with
        | none => .ok none
        | some inum => namexLoop disk f inum rest

/-- `namei` of a process whose current directory is `cwd`. -/
def namei (disk : Disk) (cwd : Nat) (path : List UInt8) : Except Stop (Option Nat) :=
  namexLoop disk (path.length + 1) (if path.head? = some slash then ROOTINO else cwd) path

/-- `strncmp` on strings in fields of `n` bytes; what comes behind a NUL does not matter. -/
theorem strncmp_iff {p q : Buf} (n : Nat) :
    ∀ (k : Nat) (a b : List UInt8), 0 ∉ a → 0 ∉ b → a.length ≤ n → b.length ≤ n →
    (∀ j < n, j ≤ a.length → p (k + j) = ofList a j) → (∀ j < n, j ≤ b.length → q (k + j) = ofList b j) →
    (strncmp p q k n = true ↔ a = b) := by
  induction n with
  | zero =>
    intro k a b _ _ ha hb _ _
    rw [List.length_eq_zero_iff.1 (Nat.le_zero.1 ha), List.length_eq_zero_iff.1 (Nat.le_zero.1 hb)]
    exact iff_of_true rfl rfl
  | succ n ih =>
    intro k a b ha0 hb0 ha hb hp hq
    have hp0 : p k = ofList a 0 := hp 0 (Nat.succ_pos n) zero_le
    have hq0 : q k = ofList b 0 := hq 0 (Nat.succ_pos n) zero_le
    rw [strncmp, hp0, hq0]
    cases a with
    | nil =>
      rw [if_neg fun h => h.1 rfl]
      cases b with
      | nil => exact iff_of_true (by decide) rfl
      | cons y b =>
        refine iff_of_false (fun h => ?_) (fun h => by cases h)
        exact hb0 (by rw [show y = 0 from (of_decide_eq_true h).symm]; exact List.mem_cons_self)
    | cons x a =>
      have hx : x ≠ 0 := fun h => ha0 (h ▸ List.mem_cons_self)
      cases b with
      | nil =>
        rw [if_neg fun h => hx h.2]
        exact iff_of_false (fun h => hx (of_decide_eq_true h)) (fun h => by cases h)
      | cons y b =>
        by_cases hxy : x = y
        · rw [if_pos ⟨hx, hxy⟩, ih (k + 1) a b (fun h => ha0 (.tail _ h)) (fun h => hb0 (.tail _ h))
            (Nat.le_of_succ_le_succ ha) (Nat.le_of_succ_le_succ hb), hxy, List.cons.injEq]
          · exact ⟨fun h => ⟨rfl, h⟩, fun h => h.2⟩
          · intro j hj hja
            rw [add_right_comm]
            exact hp (j + 1) (Nat.succ_lt_succ hj) (Nat.succ_le_succ hja)
          · intro j hj hjb
            rw [add_right_comm]
            exact hq (j + 1) (Nat.succ_lt_succ hj) (Nat.succ_le_succ hjb)
        · rw [if_neg fun h => hxy h.2]
          exact iff_of_false (fun h => hxy (of_decide_eq_true h)) fun h => hxy (List.cons.inj h).1

/-! ## Reads that go through -/

/-- Byte `k` of a file whose blocks are `a`. -/
def byteAt (disk : Disk) (a : Nat → Nat) (k : Nat) : UInt8 := disk (a (k / 512) * 512 + k % 512)

variable {len : Nat}

section

variable {disk : Disk} {ip : Buf} {a : Nat → Nat}

theorem bread_ok {b : Nat} (h : b < FSSIZE) : bread disk b = .ok (slice disk (b * 512)) := if_pos h

/-- Where every block up to the end is there, and on the disk, the loop reads to the end. -/
theorem readLoop_eq (h : ∀ bn < nblocks len, bmap disk ip bn = .ok (a bn) ∧ a bn < FSSIZE) :
    ∀ (f off n : Nat), n ≤ f → off + n ≤ len → readLoop disk ip f off n = .ok (toList (byteAt disk a) off n) := by
  intro f
  induction f with
  | zero => intro off n hf _; obtain rfl := Nat.le_zero.1 hf; rfl
  | succ f ih =>
    intro off n hf hle
    by_cases hn : n = 0
    · rw [readLoop, if_pos hn, hn]; rfl
    have hc := chunk_le off n
    have hc0 : 0 < chunk off n := chunk_pos (by omega)
    obtain ⟨hb, hlt⟩ := h (off / BSIZE) (div_lt_nblocks (by omega))
    rw [readLoop, if_neg hn, hb]
    show (bread disk (a (off / BSIZE)) >>= _) = _
    rw [bread_ok hlt]
    show (readLoop disk ip f (off + chunk off n) (n - chunk off n) >>= _) = _
    rw [ih _ _ (by omega) (by omega)]
    show Except.ok (toList (slice disk _) _ _ ++ _) = _
    rw [toList_chunk n fun k hk => by rw [byteAt, ← hk]; rfl]

theorem readi_eq (ht : getLE ip 0 2 ≠ T_DEV) (hs : getLE ip sizeAt 4 = len)
    (h : ∀ bn < nblocks len, bmap disk ip bn = .ok (a bn) ∧ a bn < FSSIZE) (off n : Nat) :
    readi disk ip off n = .ok (if len < off ∨ (off + n) % 2 ^ 32 < off then none
      else some (toList (byteAt disk a) off (if len < off + n then len - off else n))) := by
  rw [readi]
  dsimp only
  rw [if_neg ht, hs]
  by_cases hbad : len < off ∨ (off + n) % 2 ^ 32 < off
  · rw [if_pos hbad, if_pos hbad]
  · rw [if_neg hbad, if_neg hbad, readLoop_eq h _ _ _ le_rfl (by split <;> omega)]
    rfl

theorem readi_within {off n : Nat} (ht : getLE ip 0 2 ≠ T_DEV) (hs : off + n ≤ getLE ip sizeAt 4)
    (h : ∀ bn < nblocks (off + n), bmap disk ip bn = .ok (a bn) ∧ a bn < FSSIZE) :
    readi disk ip off n = .ok (some (toList (byteAt disk a) off n)) := by
  have hlt := getLE_lt ip sizeAt 4
  rw [readi]
  dsimp only
  rw [if_neg ht, if_neg (by omega), if_neg (by omega), readLoop_eq h _ _ _ le_rfl le_rfl]
  rfl

end

end Xv6.Mkfs.Kernel
