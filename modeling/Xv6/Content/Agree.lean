/-
Four parts of this development read files as `fs.c` does: on the disk that `mkfs` leaves (`Mkfs.Kernel`), from an inode
whose blocks are allocated on the way (`Content`), from a file that is its bytes (`Exec`), and from inodes that have
their bytes or entries (`Fs`). They read the same. What the kernel reads on a disk without asking for a block it reads
from the inode, and from an inode without holes come the bytes of its contents.
-/
import Xv6.Base.Outcome
import Xv6.Content.Dir
import Xv6.Exec.Exec

namespace Xv6.Content

open Base Fs Mkfs
open Mkfs.Kernel (Disk DIRENT T_DEV)

/-- The blocks of `disk` with the inode that has the bytes `dip` there. -/
structure OnDisk (disk : Disk) (dip : Buf) (s : Vol) : Prop where
  data : ∀ b, s.data b = slice disk (b * BSIZE)
  addrs : ∀ k ≤ NDIRECT, s.ip.addrs k = getLE dip (addrAt k) 4
  size : s.ip.size = getLE dip sizeAt 4
  dev : s.ip.type = .dev ↔ getLE dip 0 2 = T_DEV
  dir : s.ip.type = .dir ↔ getLE dip 0 2 = T_DIR

variable {s : Vol} {n off : Nat}

section

variable {disk : Disk} {dip : Buf}

section

variable (h : OnDisk disk dip s)

include h

theorem OnDisk.bread_eq {b : Nat} {bp : Buf} (hb : Kernel.bread disk b = .ok bp) : s.data b = bp := by
  unfold Kernel.bread at hb
  split at hb
  · cases hb; exact h.data b
  · cases hb

theorem OnDisk.pointer_eq {k : Nat} (hk : k ≤ NDIRECT) (h0 : getLE dip (addrAt k) 4 ≠ 0) :
    pointer k s = .ok (getLE dip (addrAt k) 4, s) := by
  rw [pointer, get_bind, h.addrs k hk, if_neg h0]
  rfl

theorem OnDisk.bmap_eq {bn a : Nat} (hb : Kernel.bmap disk dip bn = .ok a) :
    bmap bn s = .ok (a, s) := by
  unfold Kernel.bmap at hb
  unfold bmap
  dsimp only at hb
  split at hb
  · rename_i hd
    split at hb
    · cases hb
    · rename_i h0; cases hb; rw [if_pos hd, h.pointer_eq hd.le h0]
  · rename_i hd
    rw [if_neg hd]
    split at hb
    · rename_i hi
      split at hb
      · cases hb
      · rename_i h0
        obtain ⟨bp, hbp, hb⟩ := bind_eq_ok hb
        split at hb
        · cases hb
        · rename_i h1
          cases hb
          rw [if_pos hi, bind_ok (h.pointer_eq le_rfl h0), indirect, get_bind, h.bread_eq hbp, if_neg h1]
          rfl
    · cases hb

theorem OnDisk.readLoop_eq : ∀ f off n bytes, n ≤ f →
    Kernel.readLoop disk dip f off n = .ok bytes → readLoop f off n s = .ok (bytes, s) := by
  intro f
  induction f with
  | zero =>
    intro off n bytes hf hr
    cases hr
    rw [readLoop, if_pos (Nat.le_zero.1 hf)]
    rfl
  | succ f ih =>
    intro off n bytes hf hr
    rw [Kernel.readLoop] at hr
    rw [readLoop]
    split at hr
    · rename_i h0
      cases hr
      rw [if_pos h0]
      rfl
    · rename_i h0
      obtain ⟨b, hb, hr⟩ := bind_eq_ok hr
      obtain ⟨bp, hbp, hr⟩ := bind_eq_ok hr
      obtain ⟨rest, hrest, hr⟩ := bind_eq_ok hr
      cases hr
      have hpos : 0 < chunk off n := chunk_pos (pos_of_ne_zero h0)
      rw [if_neg h0, bind_ok (h.bmap_eq hb), get_bind, bind_ok (ih _ _ _ (by omega) hrest), h.bread_eq hbp]
      rfl

/-- What is read on the disk is read from the inode, and no block is allocated. -/
theorem OnDisk.readi_eq (ho : off < 2 ^ 32) (hn : n < 2 ^ 32) {r : Option (List UInt8)}
    (hr : Kernel.readi disk dip off n = .ok r) : readi off n s = .ok (r, s) := by
  have hwrap := add32_lt_iff ho hn
  rw [Kernel.readi] at hr
  dsimp only at hr
  rw [readi, get_bind, h.size]
  split at hr
  · cases hr
  · rename_i hdev
    rw [if_neg (mt h.dev.1 hdev)]
    split at hr
    · rename_i hbad
      cases hr
      rw [add32, if_pos hbad]
      rfl
    · rename_i hbad
      rw [if_neg (show ¬(_ ∨ add32 off n < off) from hbad)]
      obtain ⟨bytes, hb, hr⟩ := bind_eq_ok hr
      cases hr
      have hadd : add32 off n = off + n := add32_eq (by
        have := mt (fun h => Or.inr (hwrap.2 h)) hbad; omega)
      rw [hadd]
      exact bind_ok (h.readLoop_eq _ _ _ _ le_rfl hb)

theorem OnDisk.lookupLoop_eq (hsize : s.ip.size + DIRENT < 2 ^ 32) (name : List UInt8) :
    ∀ f off r, off < s.ip.size + DIRENT → s.ip.size + DIRENT ≤ off + DIRENT * f →
      Kernel.dirLoop disk dip (ofList name) f off = .ok r →
      ∃ r', lookupLoop name f off s = .ok (r', s) ∧ r = r'.map Prod.fst := by
  intro f
  induction f with
  | zero => intro off r h1 h2; omega
  | succ f ih =>
    intro off r hoff hfuel hr
    rw [Kernel.dirLoop, ← h.size] at hr
    rw [lookupLoop, get_bind]
    split at hr
    · rename_i hlt
      obtain ⟨r0, hread, hr⟩ := bind_eq_ok hr
      dsimp only at hr
      split at hr
      · cases hr
      · rename_i hlen
        have hent : readEnt .lookupRead off s = .ok (ofList (r0.getD []), s) := by
          rw [readEnt, bind_ok (h.readi_eq (by omega) (by decide) hread), if_neg hlen]; rfl
        have hnext : add32 off DIRENT = off + DIRENT := add32_eq (by omega)
        have hrest := ih (off + DIRENT) r (by omega) (by rw [Nat.mul_succ] at hfuel; omega)
        rw [if_pos hlt, bind_ok hent, hnext]
        split at hr
        · rename_i h0; rw [if_pos h0]; exact hrest hr
        · rename_i h0
          rw [if_neg h0]
          split at hr
          · rename_i hname
            cases hr
            rw [if_pos hname]
            exact ⟨some _, rfl, rfl⟩
          · rename_i hname; rw [if_neg hname]; exact hrest hr
    · rename_i hge
      cases hr
      rw [if_neg hge]
      exact ⟨none, rfl, rfl⟩

theorem OnDisk.dirlookup_eq (hsize : s.ip.size + DIRENT < 2 ^ 32) {name : List UInt8} {r : Option Nat}
    (hr : Kernel.dirlookup disk dip (ofList name) = .ok r) :
    ∃ r', dirlookup name s = .ok (r', s) ∧ r = r'.map Prod.fst := by
  rw [Kernel.dirlookup, ← h.size] at hr
  rw [dirlookup, get_bind]
  split at hr
  · cases hr
  · rename_i hdir
    rw [if_neg (mt (mt h.dir.2) hdir)]
    exact h.lookupLoop_eq hsize name _ 0 r (Nat.add_pos_right _ (by decide)) (by unfold DIRENT; omega) hr

end

end

/-! ## Contents -/

/-- The file that `exec` reads is the contents of an inode. -/
theorem NoHoles.exec_readi (h : NoHoles s) (ho : off < 2 ^ 32) (hn : n < 2 ^ 32) :
    readi off n s = .ok (Exec.readi (contents s) off n, s) := by
  rw [readi_eq h ho hn, Exec.readi, contents, length_toList]
  simp only [add32_lt_iff ho hn]

/-- What `Fs` answers to a `readi` is read from an inode with these contents. -/
theorem NoHoles.fs_readi (h : NoHoles s) {N : Nat} {t : Fin N} {st : State N} {x : Nat} {i : Inum}
    (hb : (st.ino i).bytes = contents s) (hlt : off + n < 2 ^ 32) :
    ∃ r, Fs.exec t st x (.readi i off n) = some (r, st) ∧ readi off n s = .ok (r, s) := by
  have hsize : (st.ino i).size = s.ip.size := by rw [Inode.size, hb, contents, length_toList]
  rw [readi_eq h (by omega) (by omega)]
  by_cases hbad : s.ip.size < off
  · exact ⟨none, if_pos (hsize ▸ hbad), by rw [if_pos (.inl hbad)]⟩
  · refine ⟨_, if_neg (hsize ▸ hbad), ?_⟩
    rw [if_neg (by omega), hb]

end Xv6.Content
