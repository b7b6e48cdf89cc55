/-
Holes in the image. The size of the root directory is rounded up to the next block after the last entry, so
where the entries fill their last block the size reaches one block further than the directory does. And inodes
from 208 on lie behind the inode blocks: 208 is in the bitmap, which is written last. Otherwise every block
below the size of an inode is there, and no read of the kernel allocates.
-/
import Xv6.Mkfs.Agree

namespace Xv6.Mkfs

open Base Fs

/-! ## Any number of files

Behind inode 207 the image is not what it should be, but the counters still go up. -/

variable {s s' : St} {i : Nat}

theorem locate_le {w : Work} {fbn : Nat} {r : Nat × Work} (h : locate w fbn = some r) :
    w.freeblock ≤ r.2.freeblock := by
  have hind : w.freeblock ≤ (takeInd w).freeblock := by
    rw [takeInd]
    split
    · exact Nat.le_succ _
    · exact le_rfl
  have hent : ∀ {w : Work}, takeEntry w fbn = some r → w.freeblock ≤ r.2.freeblock := by
    intro w h
    obtain ⟨buf, -, h⟩ := Option.bind_eq_some_iff.1 h
    split at h
    · obtain rfl := Option.some.inj h; exact Nat.le_succ _
    · obtain rfl := Option.some.inj h; exact le_rfl
  by_cases hd : fbn < NDIRECT
  · rw [locate, if_pos hd] at h
    obtain rfl := Option.some.inj h
    show w.freeblock ≤ (if _ then _ else _ : Work).freeblock
    split
    · exact Nat.le_succ _
    · exact le_rfl
  · rw [locate_indirect (not_lt.1 hd)] at h; exact hind.trans (hent h)

theorem appendLoop_le {f : Nat} : ∀ {w : Work} {off : Nat} {p : List UInt8} {r : Work × Nat},
    appendLoop f w off p = some r → w.freeblock ≤ r.1.freeblock := by
  induction f with
  | zero => intro w off p r h; cases h
  | succ f ih =>
    intro w off p r h
    rw [appendLoop] at h
    split at h
    · obtain rfl := Option.some.inj h; exact le_rfl
    · obtain ⟨-, h⟩ := Option.ite_none_right_eq_some.1 h
      obtain ⟨r1, hloc, h⟩ := Option.bind_eq_some_iff.1 h
      obtain ⟨buf, -, h⟩ := Option.bind_eq_some_iff.1 h
      have hrest := ih h
      exact (locate_le hloc).trans hrest

theorem iappend_le {p : List UInt8} (h : iappend s i p = some s') :
    s'.freeinode = s.freeinode ∧ s.freeblock ≤ s'.freeblock := by
  obtain ⟨din, -, h⟩ := Option.bind_eq_some_iff.1 h
  obtain ⟨r, hloop, h⟩ := Option.bind_eq_some_iff.1 h
  obtain ⟨img, -, h⟩ := Option.bind_eq_some_iff.1 h
  obtain rfl := Option.some.inj h
  exact ⟨rfl, appendLoop_le hloop⟩

theorem appendAll_le : ∀ {ps : List (List UInt8)} {s s' : St}, appendAll i s ps = some s' →
    s'.freeinode = s.freeinode ∧ s.freeblock ≤ s'.freeblock := by
  intro ps
  induction ps with
  | nil => intro s s' h; obtain rfl := Option.some.inj h; exact ⟨rfl, le_rfl⟩
  | cons p ps ih =>
    intro s s' h
    obtain ⟨s1, h1, h⟩ := Option.bind_eq_some_iff.1 h
    obtain ⟨hi1, hb1⟩ := iappend_le h1
    obtain ⟨hi2, hb2⟩ := ih h
    exact ⟨hi2.trans hi1, hb1.trans hb2⟩

theorem addFile_le {f : HostFile} (h : addFile ROOTINO s f = some s') :
    s'.freeinode = s.freeinode + 1 ∧ s.freeblock ≤ s'.freeblock := by
  rw [addFile] at h
  obtain ⟨-, h⟩ := Option.ite_none_left_eq_some.1 h
  obtain ⟨r, hialloc, h⟩ := Option.bind_eq_some_iff.1 h
  obtain ⟨img, -, hr⟩ := Option.bind_eq_some_iff.1 hialloc
  obtain rfl := Option.some.inj hr
  obtain ⟨s1, h1, h⟩ := Option.bind_eq_some_iff.1 h
  obtain ⟨hi1, hb1⟩ := iappend_le h1
  obtain ⟨hi2, hb2⟩ := appendAll_le h
  exact ⟨hi2.trans hi1, hb1.trans hb2⟩

theorem addFiles_le : ∀ {fs : List HostFile} {s s' : St}, addFiles ROOTINO s fs = some s' →
    s'.freeinode = s.freeinode + fs.length ∧ s.freeblock ≤ s'.freeblock := by
  intro fs
  induction fs with
  | nil => intro s s' h; obtain rfl := Option.some.inj h; exact ⟨rfl, le_rfl⟩
  | cons f fs ih =>
    intro s s' h
    obtain ⟨s1, h1, h⟩ := Option.bind_eq_some_iff.1 h
    obtain ⟨hi1, hb1⟩ := addFile_le h1
    obtain ⟨hi2, hb2⟩ := ih h
    exact ⟨by rw [hi2, hi1, List.length_cons]; omega, hb1.trans hb2⟩

theorem addFiles_append (gs : List HostFile) : ∀ (fs : List HostFile) (s : St),
    addFiles ROOTINO s (fs ++ gs) = (addFiles ROOTINO s fs).bind fun s => addFiles ROOTINO s gs := by
  intro fs
  induction fs with
  | nil => exact fun s => rfl
  | cons f fs ih =>
    intro s
    show ((addFile ROOTINO s f).bind fun s => addFiles ROOTINO s (fs ++ gs)) = _
    simp only [ih]
    exact (Option.bind_assoc _ _ _).symm

/-! ## Holes -/

/-- Every block below the size of every inode has an address. -/
def NoHoles (st : St) : Prop := ∀ i, 1 ≤ i → i < st.freeinode →
  ∀ bn < nblocks (getLE st.img.bytes (IADDR i + sizeAt) 4), bn < MAXFILE ∧ pointer st.img.bytes i bn ≠ 0

/-- No read of an inode stops, so none allocates a block. -/
def Reads (st : St) : Prop := ∀ i, 1 ≤ i → i < st.freeinode →
  ∃ ip, Kernel.ilock st.img.bytes i = .ok ip ∧ ∀ off n, ∃ r, Kernel.readi st.img.bytes ip off n = .ok r

variable {st : St}

section

variable {P : Nat → Nat → Nat} {nb : Nat → Nat} {c : Nat → List UInt8}

theorem Done.nblocks_size (hd : Done st P nb c) {i : Nat} (hi : 1 ≤ i) (hfi : i < st.freeinode) :
    nblocks (getLE st.img.bytes (IADDR i + sizeAt) 4) = if i = ROOTINO then (c i).length / 512 + 1 else nb i := by
  have hf := hd.fits i
  have ht := hd.tight.blocks i
  rw [hd.size i hi hfi]
  unfold nblocks BSIZE
  split <;> omega

theorem Done.noHoles (hd : Done st P nb c) (hroot : (c ROOTINO).length % 512 ≠ 0) : NoHoles st ∧ Reads st := by
  have hbelow : ∀ i, 1 ≤ i → i < st.freeinode →
      ∀ bn < nblocks (getLE st.img.bytes (IADDR i + sizeAt) 4), bn < nb i := by
    intro i hi hfi bn hbn
    have hf := hd.fits ROOTINO
    have ht := hd.tight.blocks ROOTINO
    rw [hd.nblocks_size hi hfi] at hbn
    split at hbn
    · next he =>
      rw [he] at hbn ⊢; omega
    · exact hbn
  have hptr : ∀ i, 1 ≤ i → i < st.freeinode → ∀ bn < nblocks (getLE st.img.bytes (IADDR i + sizeAt) 4),
      bn < MAXFILE ∧ P i bn ≠ 0 := by
    intro i hi hfi bn hbn
    have hlt := hbelow i hi hfi bn hbn
    have hMX := hlt.trans_le (hd.alloc.le i)
    exact ⟨hMX, (hd.alloc.upto i bn hMX).2 hlt⟩
  constructor
  · intro i hi hfi bn hbn
    obtain ⟨hMX, h0⟩ := hptr i hi hfi bn hbn
    rw [hd.pointer_eq hi hfi hMX.le]
    exact ⟨hMX, h0⟩
  · intro i hi hfi
    refine ⟨_, hd.ilock_eq hi hfi,
      fun off n => ⟨_, Kernel.readi_eq (a := P i) (hd.type_ne hi hfi) (getLE_slice _ _ _ _) ?_ off n⟩⟩
    intro bn hbn
    obtain ⟨hMX, h0⟩ := hptr i hi hfi bn hbn
    rw [hd.bmap_eq hi hfi, if_pos hMX, if_pos (hbelow i hi hfi bn hbn)]
    exact ⟨rfl, lt_of_lt_of_le (hd.alloc.range i bn h0).2 hd.fb_le⟩

/-- Where the entries fill their last block, the next one is missing. -/
theorem Done.hole (hd : Done st P nb c) (h1 : 1 < st.freeinode) (hroot : (c ROOTINO).length % 512 = 0) :
    ¬NoHoles st := by
  intro h
  have hf := hd.fits ROOTINO
  have ht := hd.tight.blocks ROOTINO
  have hn : nb ROOTINO = (c ROOTINO).length / 512 := by omega
  have hbn : nb ROOTINO < nblocks (getLE st.img.bytes (IADDR ROOTINO + sizeAt) 4) := by
    rw [hd.nblocks_size (i := ROOTINO) (le_refl 1) h1, if_pos rfl]; omega
  obtain ⟨hMX, h0⟩ := h ROOTINO (le_refl 1) h1 _ hbn
  rw [hd.pointer_eq (i := ROOTINO) (le_refl 1) h1 hMX.le] at h0
  exact lt_irrefl _ ((hd.alloc.upto ROOTINO _ hMX).1 h0)

end

theorem length_contents_root (files : List HostFile) :
    (contents bare 2 files ROOTINO).length = 16 * (files.length + 2) := by
  rw [contents_rootEntries, length_dirBytes, rootEntries, List.length_cons, List.length_cons, length_entries]

/-! ## Inodes behind the inode blocks -/

variable {used : Nat}

theorem bitmap_zero {j : Nat} (h : used ≤ 8 * j) : bitmap used j = 0 := by
  induction used with
  | zero => rfl
  | succ n ih => rw [bitmap, Function.update_of_ne (by omega), ih (by omega)]

theorem bitmap_ge {b : Nat} (h : b < used) : 2 ^ (b % 8) ≤ (bitmap used (b / 8)).toNat :=
  Nat.ge_two_pow_of_testBit (by rw [bitmap_testBit]; exact decide_eq_true h)

theorem finish_bits (h : finish s = some st) : st.freeinode = s.freeinode ∧
    ∀ o < 512, st.img.bytes (bmapstart * 512 + o) = bitmap s.freeblock o := by
  obtain ⟨din, -, h⟩ := Option.bind_eq_some_iff.1 h
  obtain ⟨img, -, h⟩ := Option.bind_eq_some_iff.1 h
  obtain ⟨img', hb, h⟩ := Option.bind_eq_some_iff.1 h
  obtain ⟨-, hb⟩ := Option.ite_none_right_eq_some.1 hb
  obtain rfl := Option.some.inj hb
  obtain rfl := Option.some.inj h
  exact ⟨rfl, fun o ho => paste_add ho⟩

variable {files : List HostFile}

/-- Seven blocks are in use for the root directory by the time inode 208 is made. -/
theorem freeblock_ge (hn : 206 < files.length) (h : filled files = some s) :
    s.freeinode = 2 + files.length ∧ 66 ≤ s.freeblock := by
  have hsplit : filled files = (filled (files.take 206)).bind fun s => addFiles ROOTINO s (files.drop 206) := by
    rw [filled, filled, Option.bind_assoc]; simp only [← addFiles_append, List.take_append_drop]
  rw [hsplit] at h
  obtain ⟨s1, h1, h⟩ := Option.bind_eq_some_iff.1 h
  have hlen : (files.take 206).length = 206 := by rw [List.length_take]; omega
  obtain ⟨-, hfi, hfb, -⟩ := (filled_spec (files.take 206) (le_of_eq hlen)).of_eq_some h1
  obtain ⟨hi2, hb2⟩ := addFiles_le h
  have hbl : 66 ≤ blocksFor (files.take 206) := by
    have h66 : 66 = nmeta + used (16 * (2 + 206)) := by decide
    rw [blocksFor, hlen, h66]
    exact le_self_add
  refine ⟨?_, by omega⟩
  rw [hi2, hfi, hlen, List.length_drop]
  omega

/-- Inode 208 is in the bitmap: its size has bits, and either no first block or more blocks than a file has. -/
theorem hole_of_many (hn : 206 < files.length) (h : main files = some st) : ¬NoHoles st := by
  rw [main_eq] at h
  obtain ⟨s, hs, hfin⟩ := Option.bind_eq_some_iff.1 h
  obtain ⟨hfi, hfb⟩ := freeblock_ge hn hs
  obtain ⟨hfi', hbits⟩ := finish_bits hfin
  intro hno
  have hbyte : ∀ {k}, k + 4 ≤ 64 → getLE st.img.bytes (IADDR 208 + k) 4 = getLE (bitmap s.freeblock) k 4 := by
    intro k hk
    rw [← getLE_slice]
    exact getLE_congr fun a _ ha => hbits a (by omega)
  have hbound := hno 208 (by decide) (by omega)
  have hsize : getLE st.img.bytes (IADDR 208 + sizeAt) 4 = (bitmap s.freeblock 8).toNat + 256 *
      ((bitmap s.freeblock 9).toNat + 256 *
      ((bitmap s.freeblock 10).toNat + 256 * ((bitmap s.freeblock 11).toNat + 256 * 0))) := hbyte (by decide)
  have h64 : 2 ^ 0 ≤ (bitmap s.freeblock 8).toNat := bitmap_ge (b := 64) (by omega)
  obtain ⟨-, hptr⟩ := hbound 0 (by unfold nblocks BSIZE; omega)
  have haddr : pointer st.img.bytes 208 0 = getLE (bitmap s.freeblock) 12 4 := hbyte (k := 12) (by decide)
  have hfb96 : 96 < s.freeblock := by
    by_contra hle
    refine hptr (haddr.trans (getLE_zero fun a h1 h2 => bitmap_zero ?_))
    omega
  have h95 : 2 ^ 7 ≤ (bitmap s.freeblock 11).toNat := bitmap_ge (b := 95) (by omega)
  refine lt_irrefl _ (hbound MAXFILE ?_).1
  have hMX : MAXFILE = 140 := rfl
  unfold nblocks BSIZE
  omega

/-- The image has no holes, and the kernel reads all of it without allocating, exactly when the inodes fit the
inode blocks and the entries of the root directory do not fill their last block. -/
theorem mkfs_no_holes_iff (files : List HostFile) (st : St) (h : main files = some st) :
    (NoHoles st ∧ Reads st) ↔ files.length ≤ 206 ∧ (files.length + 2) % 32 ≠ 0 := by
  have hlen := length_contents_root files
  constructor
  · rintro ⟨hno, -⟩
    have hn : files.length ≤ 206 := not_lt.1 fun hn => hole_of_many hn h hno
    obtain ⟨-, hfi, -, P, nb, hd⟩ := (main_spec files hn).of_eq_some h
    exact ⟨hn, fun h32 => hd.hole (by omega) (by omega) hno⟩
  · rintro ⟨hn, h32⟩
    obtain ⟨-, -, -, P, nb, hd⟩ := (main_spec files hn).of_eq_some h
    exact hd.noHoles (by omega)

/-- An empty file; the names differ for thirty of them. -/
def emptyFile (k : Nat) : HostFile where
  arg := List.replicate (k % 6 + 1) 97 ++ List.replicate (k / 6 + 1) 98
  nul := by simp [List.mem_append, List.mem_replicate]
  opens := true
  pieces := []
  small := fun _ hp => (List.not_mem_nil hp).elim

/-- A file of 515 bytes, in two pieces. -/
def twoPieces : HostFile :=
  { emptyFile 0 with
    pieces := [List.replicate 512 104, [105, 106, 107]]
    small := List.forall_mem_cons.2 ⟨by rw [List.length_replicate]; decide, List.forall_mem_singleton.2 (by decide)⟩ }

/-- Two files, one empty and one of two blocks. -/
theorem mkfs_no_holes_two : ∃ st, main [emptyFile 1, twoPieces] = some st ∧ NoHoles st ∧ Reads st := by
  have hfine : ∀ f ∈ [emptyFile 1, twoPieces], Fine f :=
    List.forall_mem_cons.2 ⟨⟨by decide, rfl, by decide⟩,
      List.forall_mem_singleton.2 ⟨by decide, rfl, by decide +kernel⟩⟩
  obtain ⟨st, hst, -⟩ := (main_spec [emptyFile 1, twoPieces] (by decide)).exists_of ⟨hfine, by decide +kernel⟩
  exact ⟨st, hst, (mkfs_no_holes_iff [emptyFile 1, twoPieces] st hst).2 (by decide)⟩

/-- Thirty files fill the first block of the root directory: its second block is missing, and a read there
allocates one. -/
theorem mkfs_thirty_files_hole : ∃ st ip, main ((List.range 30).map emptyFile) = some st ∧
    1 < nblocks (getLE st.img.bytes (IADDR ROOTINO + sizeAt) 4) ∧ pointer st.img.bytes ROOTINO 1 = 0 ∧
    Kernel.ilock st.img.bytes ROOTINO = .ok ip ∧ Kernel.readi st.img.bytes ip 512 16 = .error .balloc := by
  have hlen := length_contents_root ((List.range 30).map emptyFile)
  rw [List.length_map, List.length_range] at hlen
  have hfine : ∀ f ∈ (List.range 30).map emptyFile, Fine f := by
    intro f hf
    obtain ⟨k, -, rfl⟩ := List.mem_map.1 hf
    exact ⟨by simp [emptyFile, slash, List.mem_append, List.mem_replicate], rfl, zero_le⟩
  obtain ⟨st, hst, hfi, -, P, nb, hd⟩ :=
    (main_spec ((List.range 30).map emptyFile) (by decide)).exists_of ⟨hfine, by decide⟩
  rw [List.length_map, List.length_range] at hfi
  have h1 : ROOTINO < st.freeinode := by
    rw [hfi]; decide
  have hf := hd.fits ROOTINO
  have ht := hd.tight.blocks ROOTINO
  have hnb : nb ROOTINO = 1 := by omega
  have h0 : P ROOTINO 1 = 0 := not_not.1 fun h => by
    have := (hd.alloc.upto ROOTINO 1 (by decide)).1 h; omega
  have hsize : getLE (slice st.img.bytes (IADDR ROOTINO)) sizeAt 4 = 1024 := by
    rw [getLE_slice, hd.size ROOTINO (le_refl 1) h1, if_pos rfl, hlen]
  have hbmap : Kernel.bmap st.img.bytes (slice st.img.bytes (IADDR ROOTINO)) 1 = .error .balloc := by
    rw [hd.bmap_eq (i := ROOTINO) (le_refl 1) h1, hnb]; rfl
  refine ⟨st, _, hst, ?_, ?_, hd.ilock_eq (i := ROOTINO) (le_refl 1) h1, ?_⟩
  · rw [hd.nblocks_size (i := ROOTINO) (le_refl 1) h1, if_pos rfl, hlen]; decide
  · rw [hd.pointer_eq (i := ROOTINO) (le_refl 1) h1 (by decide), h0]
  · rw [Kernel.readi]
    dsimp only
    rw [if_neg (hd.type_ne (i := ROOTINO) (le_refl 1) h1), hsize, if_neg (by decide), if_neg (by decide),
      Kernel.readLoop, if_neg (by decide)]
    show ((Kernel.bmap st.img.bytes (slice st.img.bytes (IADDR ROOTINO)) 1 >>= _) >>= _) = _
    rw [hbmap]
    rfl

end Xv6.Mkfs
