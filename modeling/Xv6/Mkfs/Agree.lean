/-
The image that `mkfs` leaves and what the kernel reads in it. `Done` is what is known of the bytes at the end
of a run; the kernel's block map, its reads, its directory lookup and its paths are evaluated on them.
-/
import Xv6.Mkfs.Kernel
import Xv6.Mkfs.Run

namespace Xv6.Mkfs

open Base Fs Function

/-! ## The bitmap -/

theorem toNat_bit : ∀ k < 8, ((1 : UInt8) <<< UInt8.ofNat k).toNat = 2 ^ k := by decide

theorem bitmap_testBit (used b : Nat) : (bitmap used (b / 8)).toNat.testBit (b % 8) = decide (b < used) := by
  induction used with
  | zero => exact Nat.zero_testBit _
  | succ n ih =>
    rw [bitmap]
    by_cases h8 : b / 8 = n / 8
    · rw [h8, update_self, UInt8.toNat_or, Nat.testBit_or, ← h8, ih, toNat_bit _ (Nat.mod_lt _ (by decide)),
        Nat.testBit_two_pow, ← Bool.decide_or]
      exact decide_eq_decide.2 (by omega)
    · rw [update_of_ne h8, ih]; exact decide_eq_decide.2 (by omega)

/-! ## The end of a run -/

/-- The image after the last write: the sizes, the bitmap and what `Good` says. -/
structure Done (st : St) (P : Nat → Nat → Nat) (nb : Nat → Nat) (c : Nat → List UInt8) : Prop where
  alloc : Alloc st.freeinode st.freeblock P nb
  tight : Tight P nb c
  fits : ∀ i, (c i).length ≤ 512 * nb i
  fi_le : st.freeinode ≤ 208
  fb_le : st.freeblock ≤ FSSIZE
  super : ∀ o < 512, st.img.bytes (512 + o) = superblock o
  bits : ∀ o < 512, st.img.bytes (bmapstart * 512 + o) = bitmap st.freeblock o
  type : ∀ i, 1 ≤ i → i < st.freeinode → getLE st.img.bytes (IADDR i) 2 = if i = ROOTINO then T_DIR else T_FILE
  size : ∀ i, 1 ≤ i → i < st.freeinode → getLE st.img.bytes (IADDR i + sizeAt) 4 =
    if i = ROOTINO then ((c i).length / 512 + 1) * 512 else (c i).length
  direct : ∀ i, 1 ≤ i → i < st.freeinode → ∀ n < NDIRECT, getLE st.img.bytes (IADDR i + addrAt n) 4 = P i n
  indirect : ∀ i, 1 ≤ i → i < st.freeinode → getLE st.img.bytes (IADDR i + addrAt NDIRECT) 4 = P i IND
  entry : ∀ i, P i IND ≠ 0 → ∀ j < NINDIRECT, getLE st.img.bytes (P i IND * 512 + 4 * j) 4 = P i (NDIRECT + j)
  data : ∀ i o (h : o < (c i).length), st.img.bytes (P i (o / 512) * 512 + o % 512) = (c i)[o]

variable {c : Nat → List UInt8}

theorem finish_spec {s : St} (h : Image s c) (h1 : 1 < s.freeinode) :
    ∃ st P nb, finish s = some st ∧ st.freeinode = s.freeinode ∧ st.freeblock = s.freeblock ∧ Done st P nb c := by
  obtain ⟨hfb, P, nb, hg, ht⟩ := h.holds
  have hND : NDIRECT = 12 := rfl
  have hR : @Eq Nat ROOTINO 1 := rfl
  have hsize := hg.size ROOTINO (le_refl 1) h1
  have hMX : MAXFILE * BSIZE = 71680 := rfl
  have hlen := h.holds.len_le (i := ROOTINO)
  have hoff : getLE (slice s.img.bytes (IADDR ROOTINO)) sizeAt 4 = (c ROOTINO).length :=
    (getLE_slice _ _ _ _).trans hsize
  generalize hv1 : putLE s.img.bytes (IADDR ROOTINO + sizeAt) 4 (((c ROOTINO).length / 512 + 1) * 512) = v1
  generalize hv2 : paste v1 (bmapstart * 512) 512 (bitmap s.freeblock) = v2
  have heq : finish s = some { s with img := ⟨v2, s.img.len⟩ } := by
    have hw : wsect ⟨v1, s.img.len⟩ bmapstart (bitmap s.freeblock) =
        ⟨paste v1 (bmapstart * 512) 512 (bitmap s.freeblock), s.img.len⟩ := by
      apply wsect_eq
      · exact h.len
      · decide
    have hbits : s.freeblock < BSIZE * 8 := hfb.trans_lt (by decide)
    rw [finish, rinode_eq h.len (by decide)]
    show (winode s.img ROOTINO _ >>= _) = _
    rw [winode_eq h.len (by decide), hoff, putLE, paste_slice (by decide)]
    show (balloc ⟨putLE _ _ _ _, s.img.len⟩ s.freeblock >>= _) = _
    rw [show BSIZE = 512 from rfl, hv1, balloc, if_pos hbits, hw, hv2]
    rfl
  have hb : SameBut s.img.bytes v1 ROOTINO := hv1 ▸ sameBut_paste (by decide)
  have hx : SameOut v1 v2 bmapstart := hv2 ▸ same_paste _ _ _ _
  have hblock : ∀ {b o : Nat}, 59 ≤ b → o < 512 → v2 (b * 512 + o) = s.img.bytes (b * 512 + o) := fun h59 ho =>
    (hx.block (ne_of_gt h59) ho).trans (hb.block (by decide) h59)
  have hinode : ∀ {m q j : Nat}, m < 208 → q + j ≤ 64 → m ≠ ROOTINO ∨ sizeAt + 4 ≤ q ∨ q + j ≤ sizeAt →
      getLE v2 (IADDR m + q) j = getLE s.img.bytes (IADDR m + q) j := by
    intro m q j hm hq ho
    rw [hx.inode (by decide) hm hq]
    by_cases he : m = ROOTINO
    · rw [he, ← hv1]; exact getLE_putLE_out (by have := ho.resolve_left fun h => h he; omega)
    · exact hb.inode he hq
  refine ⟨_, P, nb, heq, rfl, rfl, hg.alloc, ht, hg.fits, hg.fi_le, hfb, ?_, ?_, ?_, ?_, ?_, ?_, ?_, ?_⟩
  · exact fun o ho => ((hx.super (by decide) ho).trans (hb.super ho)).trans (hg.super o ho)
  · exact fun o ho => hv2 ▸ paste_add ho
  · exact fun m hm hmf => (hinode (q := 0) (hmf.trans_le hg.fi_le) (by decide) (.inr (.inr (by decide)))).trans
      (hg.type m hm hmf)
  · intro m hm hmf
    by_cases he : m = ROOTINO
    · rw [if_pos he, he]
      show getLE v2 _ _ = _
      rw [hx.inode (by decide) (by decide) (by decide), ← hv1, getLE_putLE]
      exact Nat.mod_eq_of_lt (by omega)
    · rw [if_neg he, ← hg.size m hm hmf]
      exact hinode (hmf.trans_le hg.fi_le) (by decide) (.inl he)
  · intro m hm hmf n hn
    rw [← hg.direct m hm hmf n hn]
    exact hinode (hmf.trans_le hg.fi_le) (by rw [addrAt_eq]; omega)
      (.inr (.inl (by rw [addrAt_eq]; exact Nat.le_add_right 12 _)))
  · intro m hm hmf
    rw [← hg.indirect m hm hmf]
    exact hinode (hmf.trans_le hg.fi_le) (by decide) (.inr (.inl (by decide)))
  · intro m hne j hj
    have hNI : NINDIRECT = 128 := rfl
    have hge := hg.block_ge hne
    rw [← hg.entry m hne j hj]
    show getLE v2 _ _ = _
    rw [hx.entry (ne_of_gt hge) (by omega), hb.entry (by decide) hge]
  · exact fun m o ho => (hblock (hg.block_ge (hg.block_ne_zero ho)) (Nat.mod_lt _ (by decide))).trans (hg.data m o ho)

/-! ## Inodes and files -/

variable {st : St} {P : Nat → Nat → Nat} {nb : Nat → Nat} {i off : Nat}

namespace Done

theorem inodestart_eq (hd : Done st P nb c) : getLE (slice st.img.bytes (1 * 512)) 20 4 = 32 := by
  rw [getLE_slice]
  have hsb : getLE st.img.bytes (512 + 20) 4 = getLE (slice superblock 20) 0 4 := by
    rw [← add_zero (512 + 20), ← getLE_slice]
    refine getLE_congr fun a _ ha => ?_
    rw [slice, slice, add_assoc]
    exact hd.super _ (by omega)
  exact hsb.trans (by decide)

section

variable (hd : Done st P nb c) (hi : 1 ≤ i) (hfi : i < st.freeinode)

include hd hi hfi

/-- The kernel finds the inode where `mkfs` put it. -/
theorem ilock_eq :
    Kernel.ilock st.img.bytes i = .ok (slice st.img.bytes (IADDR i)) := by
  obtain ⟨hlt, ha⟩ := IBLOCK_lt (hfi.trans_le hd.fi_le)
  have hslice : slice (slice st.img.bytes (IBLOCK i * 512)) (i % IPB * DINODE) = slice st.img.bytes (IADDR i) := by
    funext k
    rw [slice, slice, slice, ← ha, add_assoc]
  have htype : getLE (slice st.img.bytes (IADDR i)) 0 2 ≠ 0 := by
    rw [getLE_slice]
    refine (hd.type i hi hfi).trans_ne ?_
    split <;> decide
  rw [Kernel.ilock, Kernel.bread_ok (by decide)]
  show (Kernel.bread st.img.bytes (i / IPB + getLE (slice st.img.bytes (1 * 512)) 20 4) >>= _) = _
  rw [hd.inodestart_eq]
  show (Kernel.bread st.img.bytes (IBLOCK i) >>= _) = _
  rw [Kernel.bread_ok hlt]
  show (if getLE (slice (slice _ _) _) 0 2 = 0 then _ else _) = _
  rw [hslice, if_neg htype]

/-- The kernel's block map: the pointers of the inode, and behind the last of them a new block. -/
theorem bmap_eq (bn : Nat) :
    Kernel.bmap st.img.bytes (slice st.img.bytes (IADDR i)) bn =
      if bn < MAXFILE then (if bn < nb i then .ok (P i bn) else .error .balloc) else .error .panic := by
  have hMX : MAXFILE = NDIRECT + NINDIRECT := rfl
  have hND : NDIRECT = 12 := rfl
  have hptr : bn < MAXFILE → (if P i bn = 0 then .error .balloc else .ok (P i bn) : Except Kernel.Stop Nat) =
      if bn < nb i then .ok (P i bn) else .error .balloc := by
    intro hlt
    have hup := hd.alloc.upto i bn hlt
    by_cases h0 : P i bn = 0
    · rw [if_pos h0, if_neg fun h => hup.2 h h0]
    · rw [if_neg h0, if_pos (hup.1 h0)]
  rw [Kernel.bmap]
  by_cases h1 : bn < NDIRECT
  · have hlt : bn < MAXFILE := by omega
    have ha : getLE (slice st.img.bytes (IADDR i)) (addrAt bn) 4 = P i bn := by
      rw [getLE_slice, hd.direct i hi hfi bn h1]
    rw [if_pos h1, if_pos hlt, ha, hptr hlt]
  rw [if_neg h1]
  by_cases h2 : bn - NDIRECT < NINDIRECT
  · have hlt : bn < MAXFILE := by omega
    have ha : getLE (slice st.img.bytes (IADDR i)) (addrAt NDIRECT) 4 = P i IND := by
      rw [getLE_slice, hd.indirect i hi hfi]
    rw [if_pos h2, if_pos hlt, ha]
    by_cases hI : P i IND = 0
    · rw [if_pos hI, if_neg fun h => (hd.alloc.ind i).1 (by omega) hI]
    · have hx : P i IND < FSSIZE := lt_of_lt_of_le (hd.alloc.range i IND hI).2 hd.fb_le
      have he : getLE (slice st.img.bytes (P i IND * 512)) (4 * (bn - NDIRECT)) 4 = P i bn := by
        rw [getLE_slice, hd.entry i hI (bn - NDIRECT) h2, Nat.add_sub_cancel' (not_lt.1 h1)]
      rw [if_neg hI, Kernel.bread_ok hx]
      show (if getLE (slice st.img.bytes (P i IND * 512)) (4 * (bn - NDIRECT)) 4 = 0 then _ else _) = _
      rw [he, hptr hlt]
  · rw [if_neg h2, if_neg (by omega)]

theorem bmap_ok (h : off ≤ (c i).length) :
    ∀ bn < nblocks off, Kernel.bmap st.img.bytes (slice st.img.bytes (IADDR i)) bn =
      .ok (P i bn) ∧ P i bn < FSSIZE := by
  intro bn hbn
  have hf := hd.fits i
  have hle := hd.alloc.le i
  have hlt : bn < nb i := by
    unfold nblocks BSIZE at hbn; omega
  have h0 := (hd.alloc.upto i bn (by omega)).2 hlt
  rw [hd.bmap_eq hi hfi, if_pos (by omega), if_pos hlt]
  exact ⟨rfl, lt_of_lt_of_le (hd.alloc.range i bn h0).2 hd.fb_le⟩

theorem type_ne :
    getLE (slice st.img.bytes (IADDR i)) 0 2 ≠ Kernel.T_DEV := by
  rw [getLE_slice]
  refine (hd.type i hi hfi).trans_ne ?_
  split <;> decide

theorem readi_eq {n : Nat} (h : off + n ≤ (c i).length) :
    Kernel.readi st.img.bytes (slice st.img.bytes (IADDR i)) off n = .ok (some (((c i).drop off).take n)) := by
  have hs : off + n ≤ getLE (slice st.img.bytes (IADDR i)) sizeAt 4 := by
    rw [getLE_slice, hd.size i hi hfi]
    split <;> omega
  rw [Kernel.readi_within (hd.type_ne hi hfi) hs (hd.bmap_ok hi hfi h)]
  refine congrArg (Except.ok ∘ some) (List.ext_getElem ?_ fun j h1 h2 => ?_)
  · rw [length_toList, List.length_take, List.length_drop]; omega
  · rw [length_toList] at h1
    rw [getElem_toList, List.getElem_take, List.getElem_drop, Kernel.byteAt]
    exact hd.data i (off + j) (by omega)

end

end Done

/-! ## Directories -/

variable {a : List UInt8} {inum : Nat}

theorem namecmp_dirent {name : List UInt8} (ha0 : 0 ∉ a) (ha : a.length ≤ DIRSIZ) (hn : 0 ∉ name) :
    Kernel.namecmp (ofList a) (slice (ofList (dirent inum name)) 2) = true ↔ a = name.take DIRSIZ := by
  refine Kernel.strncmp_iff DIRSIZ 0 a (name.take DIRSIZ) ha0 (fun h => hn (List.mem_of_mem_take h)) ha
    (List.length_take_le _ _) (fun j _ _ => by rw [zero_add]) fun j hj _ => ?_
  rw [zero_add, slice, add_comm]
  exact ofList_append_zeros (name.take DIRSIZ) (DIRSIZ - name.length) j

theorem inum_dirent (name : List UInt8) (h : inum < 2 ^ 16) : getLE (ofList (dirent inum name)) 0 2 = inum := by
  show (UInt8.ofNat inum).toNat + 256 * ((UInt8.ofNat (inum / 256)).toNat + 256 * 0) = inum
  rw [UInt8.toNat_ofNat', UInt8.toNat_ofNat']
  omega

def dirBytes (E : List (Nat × List UInt8)) : List UInt8 := (E.map fun e => dirent e.1 e.2).flatten

theorem length_dirBytes (E : List (Nat × List UInt8)) : (dirBytes E).length = 16 * E.length := by
  induction E with
  | nil => rfl
  | cons e E ih =>
    have hcons : dirBytes (e :: E) = dirent e.1 e.2 ++ dirBytes E := rfl
    rw [hcons, List.length_append, length_dirent, ih, List.length_cons]
    omega

section

variable {E : List (Nat × List UInt8)} {m : Nat}

theorem Done.readi_entry (hd : Done st P nb c) (h1 : 1 < st.freeinode) (hE : c ROOTINO = dirBytes E) {k : Nat}
    (hk : k < E.length) :
    Kernel.readi st.img.bytes (slice st.img.bytes (IADDR ROOTINO)) (16 * k) Kernel.DIRENT =
      .ok (some (dirent E[k].1 E[k].2)) := by
  have hlen := length_dirBytes E
  have hle : 16 * k + 16 ≤ (c ROOTINO).length := by
    rw [hE]; omega
  have hdrop := flatten_piece (E.map fun e => dirent e.1 e.2)
    (fun l hl => by obtain ⟨e, -, rfl⟩ := List.mem_map.1 hl; exact length_dirent _ _) k
    (by rw [List.length_map]; exact hk)
  rw [List.getElem_map] at hdrop
  rw [← hdrop, ← dirBytes, ← hE]
  exact hd.readi_eq (le_refl 1) h1 hle

theorem Done.dirLoop_eq (hd : Done st P nb c) (h1 : 1 < st.freeinode) (hE : c ROOTINO = dirBytes E)
    (hnum : ∀ e ∈ E, e.1 ≠ 0 ∧ e.1 < 2 ^ 16 ∧ 0 ∉ e.2) (ha0 : 0 ∉ a) (ha : a.length ≤ DIRSIZ) (hm : m < E.length)
    (hhit : a = E[m].2.take DIRSIZ) (hmiss : ∀ k (h : k < E.length), k < m → a ≠ E[k].2.take DIRSIZ) :
    ∀ (f k : Nat), k ≤ m → m < k + f →
      Kernel.dirLoop st.img.bytes (slice st.img.bytes (IADDR ROOTINO)) (ofList a) f (16 * k) = .ok (some E[m].1) := by
  intro f
  induction f with
  | zero => intro k h1 h2; omega
  | succ f ih =>
    intro k hkm hf
    have hk : k < E.length := by omega
    obtain ⟨hn0, hn16, hnul⟩ := hnum E[k] (List.getElem_mem hk)
    have hsize : 16 * k < getLE (slice st.img.bytes (IADDR ROOTINO)) sizeAt 4 := by
      have hlen := length_dirBytes E
      rw [getLE_slice, hd.size ROOTINO (le_refl 1) h1, if_pos rfl, hE]
      omega
    have hlook : Kernel.dirLoop st.img.bytes (slice st.img.bytes (IADDR ROOTINO)) (ofList a) (f + 1) (16 * k) =
        if Kernel.namecmp (ofList a) (slice (ofList (dirent E[k].1 E[k].2)) 2) then .ok (some E[k].1)
        else Kernel.dirLoop st.img.bytes (slice st.img.bytes (IADDR ROOTINO)) (ofList a) f (16 * (k + 1)) := by
      rw [Kernel.dirLoop, if_pos hsize, hd.readi_entry h1 hE hk]
      show (if (dirent E[k].1 E[k].2).length ≠ 16 then _
        else if getLE (ofList (dirent E[k].1 E[k].2)) 0 2 = 0 then _
        else if _ then Except.ok (some (getLE (ofList (dirent E[k].1 E[k].2)) 0 2)) else _) = _
      rw [if_neg (not_not.2 (length_dirent _ _)), inum_dirent _ hn16, if_neg hn0, Nat.mul_succ]
      rfl
    rw [hlook]
    rcases lt_or_eq_of_le hkm with hlt | rfl
    · rw [if_neg fun h => hmiss k hk hlt ((namecmp_dirent ha0 ha hnul).1 h)]
      exact ih (k + 1) hlt (by omega)
    · rw [if_pos ((namecmp_dirent ha0 ha hnul).2 hhit)]

theorem Done.namei_eq {q : List UInt8} (hd : Done st P nb c) (h1 : 1 < st.freeinode) (hE : c ROOTINO = dirBytes E)
    (hnum : ∀ e ∈ E, e.1 ≠ 0 ∧ e.1 < 2 ^ 16 ∧ 0 ∉ e.2) (hq0 : 0 ∉ q) (hqs : slash ∉ q) (hq : q ≠ [])
    (hm : m < E.length) (hhit : q.take DIRSIZ = E[m].2.take DIRSIZ)
    (hmiss : ∀ k (h : k < E.length), k < m → q.take DIRSIZ ≠ E[k].2.take DIRSIZ) (cwd : Nat) :
    Kernel.namei st.img.bytes cwd (slash :: q) = .ok (some E[m].1) := by
  have hsk : skipelem (slash :: q) = some (q.take DIRSIZ, []) := by
    have h : skipelem ([slash] ++ (q ++ [])) = some (q.take DIRSIZ, [].dropWhile (· = slash)) :=
      skipelem_eq (fun b hb => List.mem_singleton.1 hb) hq (fun b hb he => hqs (he ▸ hb)) (fun b hb => by cases hb)
    rw [List.append_nil] at h
    exact h
  have hend : skipelem [] = none := skipelem_eq_none fun ⟨b, hb, _⟩ => List.not_mem_nil hb
  have htype : getLE (slice st.img.bytes (IADDR ROOTINO)) 0 2 = T_DIR := by
    rw [getLE_slice]; exact (hd.type ROOTINO (le_refl 1) h1).trans (if_pos rfl)
  have hfuel : m < 0 + (getLE (slice st.img.bytes (IADDR ROOTINO)) sizeAt 4 + 1) := by
    have hlen := length_dirBytes E
    rw [getLE_slice, hd.size ROOTINO (le_refl 1) h1, if_pos rfl, hE]
    omega
  have hloop := hd.dirLoop_eq h1 hE hnum (fun h => hq0 (List.mem_of_mem_take h)) (List.length_take_le _ _) hm hhit hmiss
    _ 0 zero_le hfuel
  rw [Kernel.namei, List.length_cons, List.head?_cons, if_pos rfl, Kernel.namexLoop, hsk]
  show (Kernel.ilock st.img.bytes ROOTINO >>= _) = _
  rw [hd.ilock_eq (i := ROOTINO) (le_refl 1) h1]
  show (if getLE (slice st.img.bytes (IADDR ROOTINO)) 0 2 ≠ T_DIR then _ else _) = _
  rw [if_neg (not_not.2 htype)]
  show (Kernel.dirlookup st.img.bytes (slice st.img.bytes (IADDR ROOTINO)) (ofList (q.take DIRSIZ)) >>= _) = _
  rw [Kernel.dirlookup, if_neg (not_not.2 htype)]
  rw [hloop]
  show Kernel.namexLoop st.img.bytes (q.length + 1) E[m].1 [] = _
  rw [Kernel.namexLoop, hend]

end

/-! ## Runs -/

/-- The entries that `main` adds to the root directory, from inode `fi` on. -/
def entries (fi : Nat) : List HostFile → List (Nat × List UInt8)
  | [] => []
  | f :: fs => (fi, f.name) :: entries (fi + 1) fs

theorem length_entries (fi : Nat) (fs : List HostFile) : (entries fi fs).length = fs.length := by
  induction fs generalizing fi with
  | nil => rfl
  | cons f fs ih => rw [entries, List.length_cons, List.length_cons, ih]

variable {fi k : Nat} {fs : List HostFile}

theorem getElem_entries (h : k < fs.length) :
    (entries fi fs)[k]? = some (fi + k, fs[k].name) := by
  induction fs generalizing fi k with
  | nil => exact absurd h not_lt_zero
  | cons f fs ih =>
    cases k with
    | zero => rfl
    | succ k =>
      rw [entries, List.getElem?_cons_succ, ih (Nat.lt_of_succ_lt_succ h), List.getElem_cons_succ]
      congr 2
      omega

theorem contents_root (fs : List HostFile) (h : 1 < fi) :
    contents c fi fs ROOTINO = c ROOTINO ++ dirBytes (entries fi fs) := by
  induction fs generalizing c fi with
  | nil => exact (List.append_nil _).symm
  | cons f fs ih =>
    have hne : ROOTINO ≠ fi := ne_of_lt h
    rw [contents, ih (Nat.lt_succ_of_lt h), update_of_ne hne, update_self, List.append_assoc]
    rfl

theorem contents_below (fs : List HostFile) (h : 1 < i) (hi : i < fi) : contents c fi fs i = c i := by
  induction fs generalizing c fi with
  | nil => rfl
  | cons f fs ih =>
    have hne : i ≠ ROOTINO := ne_of_gt h
    rw [contents, ih (Nat.lt_succ_of_lt hi), update_of_ne (ne_of_lt hi), update_of_ne hne]

theorem contents_file (h : 1 < fi) (hk : k < fs.length) :
    contents c fi fs (fi + k) = fs[k].data := by
  induction fs generalizing c fi k with
  | nil => exact absurd hk not_lt_zero
  | cons f fs ih =>
    cases k with
    | zero =>
      rw [contents, contents_below (i := fi + 0) fs h (Nat.lt_succ_self fi)]
      exact update_self _ _ _
    | succ k =>
      rw [contents, List.getElem_cons_succ, ← add_assoc, add_right_comm]
      exact ih (Nat.lt_succ_of_lt h) (Nat.lt_of_succ_lt_succ hk)

/-- The whole directory. -/
def rootEntries (files : List HostFile) :
    List (Nat × List UInt8) := (ROOTINO, dot) :: (ROOTINO, dotdot) :: entries 2 files

theorem contents_rootEntries (files : List HostFile) : contents bare 2 files ROOTINO = dirBytes (rootEntries files) :=
  contents_root files (by decide)

/-- `main` succeeds exactly when every file can be read and fits an inode, and the blocks suffice. -/
theorem main_spec (files : List HostFile) (hn : files.length ≤ 206) :
    Exactly ((∀ f ∈ files, Fine f) ∧ blocksFor files ≤ FSSIZE) (main files) fun st =>
      st.freeinode = 2 + files.length ∧ st.freeblock = blocksFor files ∧
      ∃ P nb, Done st P nb (contents bare 2 files) := by
  rw [main_eq]
  refine (filled_spec files hn).bind id ?_
  rintro s hC ⟨hfi, hfb, him⟩
  obtain ⟨st, P, nb, heq, hfi', hfb', hd⟩ := finish_spec him (by omega)
  rw [heq]
  exact .ret hC ⟨hfi'.trans hfi, hfb'.trans hfb, P, nb, hd⟩

/-- Pointer `n` of inode `i`: to block `n` of the file, or for `IND` to the block of pointers. -/
def pointer (disk : Nat → UInt8) (i n : Nat) : Nat :=
  let ib := getLE disk (IADDR i + addrAt NDIRECT) 4
  if n < NDIRECT then getLE disk (IADDR i + addrAt n) 4
  else if n < MAXFILE then if ib = 0 then 0 else getLE disk (ib * BSIZE + 4 * (n - NDIRECT)) 4
  else ib

theorem Done.pointer_eq (hd : Done st P nb c) {i n : Nat} (hi : 1 ≤ i) (hfi : i < st.freeinode) (hn : n ≤ IND) :
    pointer st.img.bytes i n = P i n := by
  have hMX : MAXFILE = NDIRECT + NINDIRECT := rfl
  rw [pointer, hd.indirect i hi hfi]
  by_cases h1 : n < NDIRECT
  · rw [if_pos h1, hd.direct i hi hfi n h1]
  rw [if_neg h1]
  by_cases h2 : n < MAXFILE
  · rw [if_pos h2]
    by_cases hI : P i IND = 0
    · have hle : nb i ≤ NDIRECT := not_lt.1 fun h => (hd.alloc.ind i).1 h hI
      have hno : ¬P i n ≠ 0 := fun h0 => by
        have := (hd.alloc.upto i n h2).1 h0; omega
      rw [if_pos hI, not_not.1 hno]
    · rw [if_neg hI]
      refine (hd.entry i hI (n - NDIRECT) (by omega)).trans ?_
      rw [Nat.add_sub_cancel' (not_lt.1 h1)]
  · rw [if_neg h2, show n = IND from le_antisymm hn (not_lt.1 h2)]

theorem HostFile.mem_arg (f : HostFile) {b : UInt8} (h : b ∈ f.name) : b ∈ f.arg := by
  rw [HostFile.name] at h
  split at h
  · exact List.mem_of_mem_tail h
  · exact h

variable {files : List HostFile}

theorem getElem?_rootEntries (h : k < files.length) :
    (rootEntries files)[k + 2]? = some (2 + k, files[k].name) := getElem_entries h

theorem Done.namei_file (hd : Done st P nb (contents bare 2 files)) (h1 : 1 < st.freeinode) (hn : files.length ≤ 206)
    (hdistinct : (files.map fun f => f.name.take DIRSIZ).Nodup) {k : Nat} (hk : k < files.length) {q : List UInt8}
    (hq : q.take DIRSIZ = files[k].name.take DIRSIZ) (h0 : 0 ∉ q) (hs : slash ∉ q) (hne : q ≠ [])
    (hdot : q.take DIRSIZ ≠ dot) (hdotdot : q.take DIRSIZ ≠ dotdot) (cwd : Nat) :
    Kernel.namei st.img.bytes cwd (slash :: q) = .ok (some (2 + k)) := by
  have hlen : (rootEntries files).length = files.length + 2 := by
    rw [rootEntries, List.length_cons, List.length_cons, length_entries]
  have hget : ∀ j (h : j + 2 < (rootEntries files).length) (hj : j < files.length),
      (rootEntries files)[j + 2] = (2 + j, files[j].name) := fun j h hj =>
    (List.getElem?_eq_some_iff.1 (getElem?_rootEntries hj)).2
  have hnum : ∀ e ∈ rootEntries files, e.1 ≠ 0 ∧ e.1 < 2 ^ 16 ∧ 0 ∉ e.2 := by
    intro e he
    obtain ⟨j, hj, rfl⟩ := List.mem_iff_getElem.1 he
    rcases j with _ | _ | j
    · exact (by decide : ROOTINO ≠ 0 ∧ ROOTINO < 2 ^ 16 ∧ 0 ∉ dot)
    · exact (by decide : ROOTINO ≠ 0 ∧ ROOTINO < 2 ^ 16 ∧ 0 ∉ dotdot)
    · rw [hget j hj (by omega)]
      exact ⟨by dsimp only; omega, by dsimp only; omega, fun h => files[j].nul (files[j].mem_arg h)⟩
  have hm : k + 2 < (rootEntries files).length := by omega
  have hE := hget k hm hk
  have hres := hd.namei_eq (E := rootEntries files) (m := k + 2) h1 (contents_rootEntries files) hnum h0 hs hne hm
    (by rw [hE]; exact hq) ?_ cwd
  · rw [hE] at hres; exact hres
  · intro j hj hjk
    rcases j with _ | _ | j
    · exact hdot
    · exact hdotdot
    · rw [hget j hj (by omega), hq]
      intro he
      have hpw := List.pairwise_iff_getElem.1 hdistinct j k (by rw [List.length_map]; omega)
        (by rw [List.length_map]; omega) (by omega)
      rw [List.getElem_map, List.getElem_map] at hpw
      exact hpw he.symm

/-- The image and the kernel agree: the blocks lie on the disk, the bitmap marks those in use, none is shared,
and each file is found under its name and read back. -/
theorem mkfs_kernel_agree (files : List HostFile) (st : St) (hn : files.length ≤ NINODES - 2)
    (hdistinct : (files.map fun f => f.name.take DIRSIZ).Nodup)
    (hnames : ∀ f ∈ files, f.name.take DIRSIZ ≠ [] ∧ f.name.take DIRSIZ ≠ dot ∧ f.name.take DIRSIZ ≠ dotdot)
    (h : main files = some st) :
    (st.freeblock ≤ FSSIZE ∧ ∀ i n, 1 ≤ i → i < st.freeinode → n ≤ IND → pointer st.img.bytes i n ≠ 0 →
      nmeta ≤ pointer st.img.bytes i n ∧ pointer st.img.bytes i n < st.freeblock) ∧
    (∀ b < BSIZE * 8, (st.img.bytes (bmapstart * BSIZE + b / 8)).toNat.testBit (b % 8) = decide (b < st.freeblock)) ∧
    (∀ i n i' n', 1 ≤ i → i < st.freeinode → n ≤ IND → 1 ≤ i' → i' < st.freeinode → n' ≤ IND →
      pointer st.img.bytes i n ≠ 0 → pointer st.img.bytes i n = pointer st.img.bytes i' n' → i = i' ∧ n = n') ∧
    ∀ f ∈ files, ∀ q, q = f.name ∨ q = f.name.take DIRSIZ → ∀ cwd, ∃ inum ip,
      Kernel.namei st.img.bytes cwd (slash :: q) = .ok (some inum) ∧ Kernel.ilock st.img.bytes inum = .ok ip ∧
      Kernel.readi st.img.bytes ip 0 (getLE ip sizeAt 4) = .ok (some f.data) := by
  have hn' : files.length ≤ 206 := hn.trans (by decide)
  obtain ⟨⟨hfine, -⟩, hfi, hfb, P, nb, hd⟩ := (main_spec files hn').of_eq_some h
  refine ⟨⟨hd.fb_le, ?_⟩, ?_, ?_, ?_⟩
  · intro i n hi hfi hn h0
    rw [hd.pointer_eq hi hfi hn] at h0 ⊢
    exact hd.alloc.range i n h0
  · intro b hb
    have hbs : b / 8 < 512 := by unfold BSIZE at hb; omega
    refine Eq.trans ?_ (bitmap_testBit st.freeblock b)
    exact congrArg (fun x : UInt8 => x.toNat.testBit (b % 8)) (hd.bits (b / 8) hbs)
  · intro i n i' n' hi hfi hn hi' hfi' hn' h0 heq
    rw [hd.pointer_eq hi hfi hn] at h0 heq
    rw [hd.pointer_eq hi' hfi' hn'] at heq
    exact hd.alloc.inj i n i' n' h0 heq
  · intro f hf q hq cwd
    obtain ⟨k, hk, rfl⟩ := List.mem_iff_getElem.1 hf
    obtain ⟨hne, hdot, hdotdot⟩ := hnames _ hf
    have hsub : ∀ b ∈ q, b ∈ files[k].arg := by
      rintro b hb
      rcases hq with rfl | rfl
      · exact HostFile.mem_arg _ hb
      · exact HostFile.mem_arg _ (List.mem_of_mem_take hb)
    have htake : q.take DIRSIZ = files[k].name.take DIRSIZ := by
      rcases hq with rfl | rfl
      · rfl
      · rw [List.take_take, min_self]
    have hqne : q ≠ [] := by
      rintro rfl; exact hne htake.symm
    have hlt : 2 + k < st.freeinode := by omega
    have hdata : contents bare 2 files (2 + k) = files[k].data := contents_file (by decide) hk
    refine ⟨2 + k, slice st.img.bytes (IADDR (2 + k)), ?_, hd.ilock_eq (by omega) hlt, ?_⟩
    · exact hd.namei_file (by omega) hn' hdistinct hk htake (fun h => files[k].nul (hsub 0 h))
        (fun h => (hfine _ hf).1 (hsub slash h)) hqne (htake ▸ hdot) (htake ▸ hdotdot) cwd
    · have hsize : getLE (slice st.img.bytes (IADDR (2 + k))) sizeAt 4 = (contents bare 2 files (2 + k)).length := by
        have hroot : 2 + k ≠ ROOTINO := fun h : 2 + k = 1 => by omega
        rw [getLE_slice, hd.size _ (by omega) hlt, if_neg hroot]
      rw [hsize, hd.readi_eq (by omega) hlt (by rw [zero_add]), List.drop_zero, List.take_length, hdata]

/-- A file of thirteen blocks, one more than the inode itself points to. -/
def longFile : HostFile where
  arg := [95, 97]
  nul := by decide
  opens := true
  pieces := List.replicate 13 (List.replicate BSIZE 7)
  small := fun p hp => by
    rw [List.eq_of_mem_replicate hp, List.length_replicate]; decide

theorem mkfs_kernel_agree_long : ∃ st inum ip, main [longFile] = some st ∧
    Kernel.namei st.img.bytes ROOTINO [slash, 97] = .ok (some inum) ∧ Kernel.ilock st.img.bytes inum = .ok ip ∧
    Kernel.readi st.img.bytes ip 0 (getLE ip sizeAt 4) = .ok (some longFile.data) := by
  have hlen : longFile.data.length = 13 * BSIZE := by
    have hflat : longFile.data = (List.replicate 13 (List.replicate BSIZE 7)).flatten := rfl
    rw [hflat, List.length_flatten, List.map_replicate, List.length_replicate, List.sum_replicate_nat]
  have hfine : ∀ f ∈ [longFile], Fine f := by
    intro f hf
    rw [List.mem_singleton.1 hf]
    exact ⟨by decide, rfl, by rw [hlen]; decide⟩
  have hblocks : blocksFor [longFile] ≤ FSSIZE := by
    rw [blocksFor, dataBlocks_cons, hlen]; decide
  obtain ⟨st, hst, -⟩ := (main_spec [longFile] (by decide)).exists_of ⟨hfine, hblocks⟩
  obtain ⟨inum, ip, hr⟩ := (mkfs_kernel_agree [longFile] st (by decide) (by decide) (by decide) hst).2.2.2
    longFile List.mem_cons_self longFile.name (.inl rfl) ROOTINO
  exact ⟨st, inum, ip, hst, hr⟩

end Xv6.Mkfs
