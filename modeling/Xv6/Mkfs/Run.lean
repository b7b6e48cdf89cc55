/-
Whole runs of `mkfs`. What the image holds is followed through the calls of `main`: an inode is made, pieces
are appended to it and an entry to the root directory. Every block taken is accounted for, so that it is known
when the program gives up, and after a run the image is known but for the two things done at the end.
-/
import Xv6.Mkfs.Append

namespace Xv6.Mkfs

open Base Fs Function

/-- The image of `s` holds the files `c`. -/
structure Image (s : St) (c : Nat → List UInt8) : Prop where
  len : s.img.len = FSSIZE * BSIZE
  holds : Holds s.img.bytes s.freeinode s.freeblock c

variable {s : St} {c : Nat → List UInt8} {type : Nat}

section

variable {i : Nat}

theorem fits_zero (h : Image s c) (i : Nat) : Fits s.freeblock (c i).length 0 :=
  ⟨h.holds.len_le, Nat.add_le_add_right h.holds.1 _⟩

/-- What a call of `iappend` leaves behind. -/
structure Appended (s s' : St) (c : Nat → List UInt8) (i : Nat) (p : List UInt8) : Prop where
  inodes : s'.freeinode = s.freeinode
  blocks : s'.freeblock + used (c i).length = s.freeblock + used ((c i).length + p.length)
  image : Image s' (update c i (c i ++ p))

theorem iappend_spec (h : Image s c) (hi : 1 ≤ i) (hfi : i < s.freeinode) (p : List UInt8) :
    Exactly (Fits s.freeblock (c i).length p.length) (iappend s i p) fun s' => Appended s s' c i p := by
  obtain ⟨-, P, nb, hg, -⟩ := h.holds
  have hi' : i < 208 := hfi.trans_le hg.fi_le
  have hsize := hg.size i hi hfi
  have hstart := view_start s.img s.freeblock hsize
  have hoff : getLE (slice s.img.bytes (IADDR i)) sizeAt 4 = (c i).length := (getLE_slice _ _ _ _).trans hsize
  rw [iappend, rinode_eq h.len hi', ← hoff]
  refine (appendLoop_spec hi hfi _ _ _ c p (Nat.lt_succ_self _) h.len hoff.symm ?_).bind id ?_
  · rw [hoff, hstart]; exact h.holds
  · rintro ⟨w, off⟩ hfit ⟨rfl, hfb, hl, hh⟩
    rw [winode_eq hl hi', paste_view, hoff] at *
    exact .ret hfit ⟨rfl, hfb, hl, hh⟩

theorem appendAll_spec (h : Image s c) (hi : 1 ≤ i) (hfi : i < s.freeinode) (ps : List (List UInt8)) :
    Exactly (Fits s.freeblock (c i).length ps.flatten.length) (appendAll i s ps) fun s' =>
    Appended s s' c i ps.flatten := by
  induction ps generalizing s c with
  | nil =>
    refine .ret (fits_zero h i) ⟨rfl, rfl, ?_⟩
    rw [List.flatten_nil, List.append_nil, update_eq_self]
    exact h
  | cons p ps ih =>
    rw [List.flatten_cons, List.length_append]
    have hu := used_mono (show (c i).length + p.length ≤ (c i).length + (p.length + ps.flatten.length) by omega)
    refine (iappend_spec h hi hfi p).bind (fun hf => ⟨by have := hf.1; omega, by have := hf.2; omega⟩) ?_
    intro s1 hf1 h1
    have hlen : (update c i (c i ++ p) i).length = (c i).length + p.length := by
      rw [update_self, List.length_append]
    have hb := h1.blocks
    refine (ih h1.image (h1.inodes ▸ hfi)).mono ?_ ?_
    · rw [hlen, Fits, Fits, add_assoc]; exact and_congr_right fun _ => by omega
    · intro s2 _ h2
      have hb2 := h2.blocks
      rw [hlen, add_assoc] at hb2
      refine ⟨h2.inodes.trans h1.inodes, by rw [List.length_append]; omega, ?_⟩
      have hi2 := h2.image
      rw [update_self, update_idem, List.append_assoc] at hi2
      exact hi2

/-- The inode that `ialloc` writes. -/
def newInode (type : Nat) : Buf := putLE (putLE (putLE (fun _ => 0) 0 2 type) 6 2 1) sizeAt 4 0

theorem newInode_zero {a : Nat} (h : sizeAt ≤ a) : newInode type a = 0 := by
  unfold sizeAt at h
  by_cases h4 : a < 12
  · have hb : bytesLE 0 (a - 8) = 0 := by
      rw [bytesLE, Nat.zero_div]; rfl
    exact (paste_in h (by omega)).trans hb
  · rw [newInode, putLE, paste_out (.inr (by unfold sizeAt; omega)), putLE, paste_out (.inr (by omega)), putLE,
      paste_out (.inr (by omega))]

theorem newInode_type (h : type < 256 ^ 2) : getLE (newInode type) 0 2 = type := by
  rw [newInode, getLE_putLE_out (by decide), getLE_putLE_out (by decide), getLE_putLE, Nat.mod_eq_of_lt h]

theorem ialloc_spec (type : Nat) (h : Image s c) (hfi : s.freeinode < 208)
    (ht : type = if s.freeinode = ROOTINO then T_DIR else T_FILE) :
    ∃ s', ialloc s type = some (s.freeinode, s') ∧ s'.freeinode = s.freeinode + 1 ∧
      s'.freeblock = s.freeblock ∧ Image s' c := by
  obtain ⟨hle, P, nb, hg, htight⟩ := h.holds
  have hlt : type < 256 ^ 2 := by
    rw [ht]
    split <;> decide
  have heq : ialloc s type = some (s.freeinode, { s with
      img := ⟨paste s.img.bytes (IADDR s.freeinode) 64 (newInode type), s.img.len⟩
      freeinode := s.freeinode + 1 }) := by
    rw [ialloc, winode_eq h.len hfi]
    rfl
  refine ⟨_, heq, rfl, rfl, h.len, hle, P, nb, hg.inode hfi ?_ fun a ha _ => newInode_zero ha, htight⟩
  rw [newInode_type hlt, ht]

end

/-! ## The program -/

theorem length_dirent (inum : Nat) (name : List UInt8) : (dirent inum name).length = 16 := by
  have h : DIRSIZ = 14 := rfl
  simp only [dirent, List.length_append, List.length_cons, List.length_nil, List.length_take, List.length_replicate]
  omega

/-- What the image holds after the files `fs`, the first of them in inode `fi`. -/
def contents (c : Nat → List UInt8) (fi : Nat) : List HostFile → Nat → List UInt8
  | [] => c
  | f :: fs => contents (update (update c ROOTINO (c ROOTINO ++ dirent fi f.name)) fi f.data) (fi + 1) fs

/-- A file that can be read and that fits an inode. -/
def Fine (f : HostFile) : Prop := slash ∉ f.arg ∧ f.opens = true ∧ f.data.length ≤ MAXFILE * BSIZE

def dataBlocks (fs : List HostFile) : Nat := (fs.map fun f => used f.data.length).sum

theorem dataBlocks_cons (f : HostFile) (fs : List HostFile) :
    dataBlocks (f :: fs) = used f.data.length + dataBlocks fs := rfl

theorem addFile_spec (h : Image s c) (h1 : 1 < s.freeinode) (h2 : s.freeinode < 208) (f : HostFile)
    (hroot : (c ROOTINO).length + 16 ≤ MAXFILE * BSIZE) :
    Exactly (Fine f ∧ s.freeblock + used ((c ROOTINO).length + 16) + used f.data.length ≤
      FSSIZE + used (c ROOTINO).length) (addFile ROOTINO s f) fun s' => s'.freeinode = s.freeinode + 1 ∧
        s'.freeblock + used (c ROOTINO).length = s.freeblock + used ((c ROOTINO).length + 16) + used f.data.length ∧
        Image s' (update (update c ROOTINO (c ROOTINO ++ dirent s.freeinode f.name)) s.freeinode f.data) := by
  have hR : @Eq Nat ROOTINO 1 := rfl
  obtain ⟨s1, heq, hfi1, hfb1, him1⟩ := ialloc_spec T_FILE h h2 (by rw [if_neg (by omega)])
  rw [addFile]
  by_cases hbad : slash ∈ f.arg ∨ f.opens = false
  · rw [if_pos hbad]
    refine .fail fun hC => ?_
    rcases hbad with hb | hb
    · exact hC.1.1 hb
    · rw [hC.1.2.1] at hb; cases hb
  rw [if_neg hbad, heq]
  push Not at hbad
  obtain ⟨-, P, nb, hg, -⟩ := h.holds
  have hnew : c s.freeinode = [] := hg.fresh le_rfl
  refine ((iappend_spec (i := ROOTINO) him1 (le_refl 1) (by omega) (dirent s.freeinode f.name)).bind (fun hC => ?_) ?_)
  · rw [hfb1, length_dirent]; exact ⟨hroot, by have := hC.2; omega⟩
  · intro s2 hf2 h2'
    have hb := h2'.blocks
    have hc2 : update c ROOTINO (c ROOTINO ++ dirent s.freeinode f.name) s.freeinode = [] := by
      rw [update_of_ne (by omega), hnew]
    rw [hfb1, length_dirent] at hb
    refine (appendAll_spec (i := s.freeinode) h2'.image h1.le (by rw [h2'.inodes]; omega) f.pieces).mono ?_ ?_
    · have hm := used_mono (Nat.zero_le f.data.length)
      have h0 : used 0 = 0 := rfl
      rw [hc2, Fits, List.length_nil, zero_add, h0]
      exact ⟨fun hC => ⟨⟨hbad.1, Bool.eq_true_of_not_eq_false hbad.2, hC.1⟩, by
        have := hC.2; unfold HostFile.data; omega⟩,
        fun hC => ⟨hC.1.2.2, by have := hC.2; unfold HostFile.data at this; omega⟩⟩
    · intro s3 _ h3
      have hb3 := h3.blocks
      have him3 := h3.image
      rw [hc2, List.length_nil, zero_add] at hb3
      rw [hc2, List.nil_append] at him3
      have h0 : used 0 = 0 := rfl
      refine ⟨by rw [h3.inodes, h2'.inodes, hfi1], ?_, him3⟩
      unfold HostFile.data
      omega

theorem addFiles_spec (h : Image s c) (h1 : 1 < s.freeinode) (fs : List HostFile) (h2 : s.freeinode + fs.length ≤ 208)
    (hroot : (c ROOTINO).length = 16 * s.freeinode) :
    Exactly ((∀ f ∈ fs, Fine f) ∧
        s.freeblock + used (16 * (s.freeinode + fs.length)) + dataBlocks fs ≤ FSSIZE + used (16 * s.freeinode))
      (addFiles ROOTINO s fs) fun s' => s'.freeinode = s.freeinode + fs.length ∧
        s'.freeblock + used (16 * s.freeinode) = s.freeblock + used (16 * (s.freeinode + fs.length)) + dataBlocks fs ∧
        Image s' (contents c s.freeinode fs) := by
  induction fs generalizing s c with
  | nil => exact .ret ⟨fun f hf => (List.not_mem_nil hf).elim, Nat.add_le_add_right h.holds.1 _⟩ ⟨rfl, rfl, h⟩
  | cons f fs ih =>
    have hR : @Eq Nat ROOTINO 1 := rfl
    have hMX : MAXFILE * BSIZE = 71680 := rfl
    have hdb := dataBlocks_cons f fs
    rw [List.length_cons] at h2 ⊢
    have hu := used_mono (show 16 * (s.freeinode + 1) ≤ 16 * (s.freeinode + (fs.length + 1)) by omega)
    have hadd := addFile_spec h h1 (by omega) f (by omega)
    rw [hroot, show 16 * s.freeinode + 16 = 16 * (s.freeinode + 1) by omega] at hadd
    refine hadd.bind (fun hC => ⟨hC.1 f List.mem_cons_self, by have := hC.2; omega⟩) ?_
    rintro s1 ⟨hfine, hle⟩ ⟨hfi1, hfb1, him1⟩
    have hroot1 : (update (update c ROOTINO (c ROOTINO ++ dirent s.freeinode f.name)) s.freeinode f.data
        ROOTINO).length = 16 * s1.freeinode := by
      rw [update_of_ne (by omega), update_self, List.length_append, length_dirent, hroot, hfi1]
      omega
    have hrest := ih him1 (by omega) (by omega) hroot1
    rw [hfi1, add_right_comm s.freeinode 1, add_assoc s.freeinode] at hrest
    refine hrest.mono ?_ ?_
    · rw [List.forall_mem_cons]
      exact ⟨fun hC => ⟨⟨hfine, hC.1⟩, by have := hC.2; omega⟩, fun hC => ⟨hC.1.2, by have := hC.2; omega⟩⟩
    · rintro s2 - ⟨hfi2, hfb2, him2⟩; exact ⟨hfi2, by omega, him2⟩

theorem image_blank : Image blank fun _ => [] := by
  have heq : blank.img = ⟨paste (fun _ => 0) 512 512 superblock, FSSIZE * BSIZE⟩ := wsect_eq rfl (by decide) superblock
  refine ⟨by rw [heq], by decide, fun _ _ => 0, fun _ => 0, ?_, ⟨fun _ => by decide, fun _ h => absurd rfl h⟩⟩
  rw [heq]
  dsimp only
  refine ⟨⟨le_rfl, fun _ _ h => absurd rfl h, fun _ _ _ _ h => absurd rfl h, fun _ _ _ => ?_, fun _ => ?_, ?_, ?_⟩,
    le_rfl, by decide, ?_, ?_, ?_, ?_, ?_, ?_, ?_, ?_, ?_⟩
  · exact ⟨fun h => absurd rfl h, fun h => absurd h (not_lt_zero)⟩
  · exact ⟨fun h => absurd h (not_lt_zero), fun h => absurd rfl h⟩
  · exact fun _ => zero_le
  · exact fun _ _ => ⟨rfl, fun _ => rfl⟩
  · exact fun o ho => paste_add ho
  · intro b hb _ o _
    have hfb : blank.freeblock = 59 := rfl
    exact paste_out (.inr (by omega))
  · exact fun m h1 h2 => absurd h2 (not_lt.2 h1)
  · exact fun m h1 h2 => absurd h2 (not_lt.2 h1)
  · exact fun m h1 h2 => absurd h2 (not_lt.2 h1)
  · exact fun m h1 h2 => absurd h2 (not_lt.2 h1)
  · exact fun _ h => absurd rfl h
  · exact fun _ o ho => absurd ho not_lt_zero
  · exact fun _ => zero_le

/-- The root directory before the files. -/
def bare : Nat → List UInt8 :=
  update (fun _ => []) ROOTINO (dirent ROOTINO dot ++ dirent ROOTINO dotdot)

theorem length_bare : (bare ROOTINO).length = 32 := by decide

theorem makeRoot_spec : ∃ s, makeRoot = some s ∧ s.freeinode = 2 ∧ s.freeblock = 60 ∧ Image s bare := by
  obtain ⟨s1, heq, hfi1, hfb1, him1⟩ := ialloc_spec T_DIR image_blank (by decide) rfl
  have hfi1' : s1.freeinode = 2 := hfi1
  have hfb1' : s1.freeblock = 59 := hfb1
  obtain ⟨s2, heq2, h2⟩ := (iappend_spec (i := ROOTINO) him1 (le_refl 1) (by rw [hfi1']; decide)
    (dirent ROOTINO dot)).exists_of (by rw [hfb1', length_dirent]; exact ⟨by decide, by decide⟩)
  have hc2 : (update (fun _ => []) ROOTINO ([] ++ dirent ROOTINO dot) ROOTINO : List UInt8) = dirent ROOTINO dot := by
    rw [update_self, List.nil_append]
  have hb2 := h2.blocks
  rw [hfb1', length_dirent] at hb2
  have hfb2 : s2.freeblock = 60 := hb2
  obtain ⟨s3, heq3, h3⟩ := (iappend_spec (i := ROOTINO) h2.image (le_refl 1) (by rw [h2.inodes, hfi1']; decide)
    (dirent ROOTINO dotdot)).exists_of (by rw [hfb2, length_dirent, hc2, length_dirent]; exact ⟨by decide, by decide⟩)
  have hb3 := h3.blocks
  rw [hfb2, length_dirent, hc2, length_dirent] at hb3
  refine ⟨s3, ?_, h3.inodes.trans (h2.inodes.trans hfi1'), Nat.add_right_cancel hb3, ?_⟩
  · rw [makeRoot, heq]
    show ((iappend s1 ROOTINO (dirent ROOTINO dot)).bind fun s => iappend s ROOTINO (dirent ROOTINO dotdot)) = some s3
    rw [heq2, Option.bind_some, heq3]
  · have him3 := h3.image; rw [hc2, update_idem] at him3; exact him3

/-- The image before the size of the root directory is rounded. -/
def filled (files : List HostFile) : Option St := makeRoot.bind fun s => addFiles ROOTINO s files

theorem main_eq (files : List HostFile) : main files = (filled files).bind finish := by
  rw [filled, Option.bind_assoc]; rfl

/-- The blocks in use for the files: those of the layout, the root directory and the data. -/
def blocksFor (files : List HostFile) : Nat := nmeta + used (16 * (2 + files.length)) + dataBlocks files

theorem filled_spec (files : List HostFile) (hn : files.length ≤ 206) :
    Exactly ((∀ f ∈ files, Fine f) ∧ blocksFor files ≤ FSSIZE) (filled files) fun s =>
      s.freeinode = 2 + files.length ∧ s.freeblock = blocksFor files ∧ Image s (contents bare 2 files) := by
  obtain ⟨s, heq, hfi, hfb, him⟩ := makeRoot_spec
  have hspec := addFiles_spec him (by rw [hfi]; decide) files (by omega) (by rw [hfi, length_bare])
  have hu : used (16 * 2) = 1 := rfl
  have hm : nmeta = 59 := rfl
  rw [filled, heq]
  rw [hfi, hfb, hu] at hspec
  unfold blocksFor
  refine hspec.mono (and_congr_right fun _ => by omega) ?_
  rintro s' - ⟨h1, h2, h3⟩
  exact ⟨h1, by omega, h3⟩

end Xv6.Mkfs
