/-
What the bytes of an image stand for. `Good` relates them to the block numbers each inode has, `P i n` for
block `n` of the file and `P i IND` for the indirect block, and to the bytes of each file: pointers are
handed out from `freeblock` on and never twice, a file has them up to some block, and the blocks that
are still free hold zeros. Each thing `mkfs` does to the image is one of a few moves: a pointer is set in the
inode or in the indirect block, a piece of data is written behind the file, an inode is made.
-/
import Xv6.Mkfs.Mkfs

namespace Xv6.Mkfs

open Base Fs Function

/-! ## Places in the image -/

def IADDR (i : Nat) : Nat := inodestart * BSIZE + DINODE * i

theorem IADDR_eq (i : Nat) : IADDR i = 16384 + 64 * i := rfl

/-- The pointer to the indirect block, among the pointers of a file. -/
def IND : Nat := MAXFILE

theorem IND_eq : IND = 140 := rfl

theorem addrAt_eq (k : Nat) : addrAt k = 12 + 4 * k := rfl

variable {i x : Nat}

section

variable {img : Img}

theorem seek_eq (h : x < 2 ^ 23) : seek x = x * 512 := by
  unfold seek BSIZE; omega

theorem rsect_eq (hl : img.len = FSSIZE * BSIZE) (hx : x < FSSIZE) :
    rsect img x = some (slice img.bytes (x * 512)) := by
  unfold FSSIZE at *
  unfold BSIZE at hl
  rw [rsect, seek_eq (by omega), if_pos]
  unfold BSIZE
  omega

theorem wsect_eq (hl : img.len = FSSIZE * BSIZE) (hx : x < FSSIZE) (buf : Buf) :
    wsect img x buf = ⟨paste img.bytes (x * 512) 512 buf, img.len⟩ := by
  unfold FSSIZE at *
  unfold BSIZE at hl
  rw [wsect, seek_eq (by omega)]
  unfold BSIZE
  congr 1
  omega

theorem IBLOCK_lt (hi : i < 208) : IBLOCK i < FSSIZE ∧ IBLOCK i * 512 + i % IPB * DINODE = IADDR i := by
  have h1 : IBLOCK i = i / 8 + 32 := rfl
  have h2 : i % IPB * DINODE = i % 8 * 64 := rfl
  rw [h1, h2, IADDR_eq]
  unfold FSSIZE
  omega

theorem rinode_eq (hl : img.len = FSSIZE * BSIZE) (hi : i < 208) : rinode img i = some (slice img.bytes (IADDR i)) := by
  obtain ⟨hlt, ha⟩ := IBLOCK_lt hi
  rw [rinode, rsect_eq hl hlt, ← ha]
  refine congrArg some (funext fun k => ?_)
  simp only [slice, add_assoc]

theorem winode_eq (hl : img.len = FSSIZE * BSIZE) (hi : i < 208) (d : Buf) :
    winode img i d = some ⟨paste img.bytes (IADDR i) 64 d, img.len⟩ := by
  obtain ⟨hlt, ha⟩ := IBLOCK_lt hi
  have hp : i % IPB * DINODE + 64 ≤ 512 := by
    have : i % IPB * DINODE = i % 8 * 64 := rfl; omega
  rw [winode, rsect_eq hl hlt]
  show some (wsect img (IBLOCK i) _) = _
  rw [wsect_eq hl hlt, ← ha]
  exact congrArg (fun b => some (Img.mk b img.len)) (paste_slice hp)

end

/-! ## Pointers -/

/-- Pointers are handed out from `nmeta` to `fb`, none of them twice, and file `i` has them for its first
`nb i` blocks. -/
structure Alloc (fi fb : Nat) (P : Nat → Nat → Nat) (nb : Nat → Nat) : Prop where
  fb_ge : nmeta ≤ fb
  range : ∀ i n, P i n ≠ 0 → nmeta ≤ P i n ∧ P i n < fb
  inj : ∀ i n i' n', P i n ≠ 0 → P i n = P i' n' → i = i' ∧ n = n'
  upto : ∀ i n, n < MAXFILE → (P i n ≠ 0 ↔ n < nb i)
  ind : ∀ i, (NDIRECT < nb i → P i IND ≠ 0) ∧ (P i IND ≠ 0 → NDIRECT ≤ nb i)
  le : ∀ i, nb i ≤ MAXFILE
  fresh : ∀ i, i = 0 ∨ fi ≤ i → nb i = 0 ∧ ∀ n, P i n = 0

def setP (P : Nat → Nat → Nat) (i n x : Nat) : Nat → Nat → Nat := fun i' n' => if i' = i ∧ n' = n then x else P i' n'

variable {P : Nat → Nat → Nat} {n : Nat}

section

variable {i' n' : Nat}

theorem setP_self : setP P i n x i n = x := if_pos ⟨rfl, rfl⟩

theorem setP_of_ne (h : i' ≠ i ∨ n' ≠ n) : setP P i n x i' n' = P i' n' :=
  if_neg fun he => h.elim (fun h => h he.1) fun h => h he.2

end

variable {fb fi : Nat} {nb : Nat → Nat}

namespace Alloc

theorem range_setP (h : Alloc fi fb P nb) : ∀ i' n', setP P i n fb i' n' ≠ 0 →
    nmeta ≤ setP P i n fb i' n' ∧ setP P i n fb i' n' < fb + 1 := by
  intro i' n' h0
  by_cases he : i' = i ∧ n' = n
  · rw [he.1, he.2, setP_self]; exact ⟨h.fb_ge, Nat.lt_succ_self fb⟩
  · rw [setP_of_ne (not_and_or.1 he)] at h0 ⊢
    exact ⟨(h.range i' n' h0).1, Nat.lt_succ_of_lt (h.range i' n' h0).2⟩

theorem inj_setP (h : Alloc fi fb P nb) :
    ∀ i₁ n₁ i₂ n₂, setP P i n fb i₁ n₁ ≠ 0 → setP P i n fb i₁ n₁ = setP P i n fb i₂ n₂ →
    i₁ = i₂ ∧ n₁ = n₂ := by
  have hfb : 0 < fb := lt_of_lt_of_le (by decide) h.fb_ge
  -- no other pointer is the next free block
  have hne : ∀ i' n', P i' n' ≠ fb := fun i' n' he =>
    absurd (h.range i' n' (by omega)).2 (by omega)
  intro i₁ n₁ i₂ n₂ h0 heq
  by_cases h1 : i₁ = i ∧ n₁ = n <;> by_cases h2 : i₂ = i ∧ n₂ = n
  · exact ⟨h1.1.trans h2.1.symm, h1.2.trans h2.2.symm⟩
  · rw [h1.1, h1.2, setP_self, setP_of_ne (not_and_or.1 h2)] at heq
    exact absurd heq.symm (hne i₂ n₂)
  · rw [h2.1, h2.2, setP_self, setP_of_ne (not_and_or.1 h1)] at heq
    exact absurd heq (hne i₁ n₁)
  · rw [setP_of_ne (not_and_or.1 h1)] at h0 heq
    rw [setP_of_ne (not_and_or.1 h2)] at heq
    exact h.inj i₁ n₁ i₂ n₂ h0 heq

theorem fresh_setP (h : Alloc fi fb P nb) (hi : 1 ≤ i) (hfi : i < fi) {x : Nat} {i' : Nat} (ho : i' = 0 ∨ fi ≤ i') :
    ∀ n', setP P i n x i' n' = 0 := by
  intro n'
  rw [setP_of_ne (.inl (by omega))]
  exact (h.fresh i' ho).2 n'

theorem setBlock (h : Alloc fi fb P nb) (hi : 1 ≤ i) (hfi : i < fi) (hlt : nb i < MAXFILE)
    (hind : NDIRECT ≤ nb i → P i IND ≠ 0) : Alloc fi (fb + 1) (setP P i (nb i) fb) (update nb i (nb i + 1)) := by
  have hIND : IND = MAXFILE := rfl
  have hfb : 0 < fb := lt_of_lt_of_le (by decide) h.fb_ge
  have hPI : ∀ i', setP P i (nb i) fb i' IND = P i' IND := fun i' => setP_of_ne (.inr (by omega))
  refine ⟨Nat.le_succ_of_le h.fb_ge, h.range_setP, h.inj_setP, ?_, ?_, ?_, ?_⟩
  · intro i' n' hn'
    by_cases he : i' = i
    · subst he
      rw [update_self]
      by_cases hne : n' = nb i'
      · rw [hne, setP_self]; exact iff_of_true (by omega) (by omega)
      · rw [setP_of_ne (.inr hne), h.upto i' n' hn']; omega
    · rw [setP_of_ne (.inl he), update_of_ne he, h.upto i' n' hn']
  · intro i'
    rw [hPI]
    by_cases he : i' = i
    · subst he
      rw [update_self]
      exact ⟨fun hlt => hind (by omega), fun h0 => Nat.le_succ_of_le ((h.ind i').2 h0)⟩
    · rw [update_of_ne he]; exact h.ind i'
  · intro i'
    by_cases he : i' = i
    · rw [he, update_self]; omega
    · rw [update_of_ne he]; exact h.le i'
  · intro i' ho
    rw [update_of_ne (by omega)]
    exact ⟨(h.fresh i' ho).1, h.fresh_setP hi hfi ho⟩

theorem setInd (h : Alloc fi fb P nb) (hi : 1 ≤ i) (hfi : i < fi) (hnb : nb i = NDIRECT) :
    Alloc fi (fb + 1) (setP P i IND fb) nb := by
  have hIND : IND = MAXFILE := rfl
  refine ⟨Nat.le_succ_of_le h.fb_ge, h.range_setP, h.inj_setP, ?_, ?_, h.le, ?_⟩
  · intro i' n' hn'; rw [setP_of_ne (.inr (by omega))]; exact h.upto i' n' hn'
  · intro i'
    by_cases he : i' = i
    · subst he; exact ⟨fun hlt => by omega, fun _ => by omega⟩
    · rw [setP_of_ne (.inl he)]; exact h.ind i'
  · exact fun i' ho => ⟨(h.fresh i' ho).1, h.fresh_setP hi hfi ho⟩

end Alloc

/-! ## The invariant -/

/-- The bytes `v` hold the inodes below `fi`, with the pointers `P` and the bytes `c` of the files; the blocks
from `fb` on are free. -/
structure Good (v : Nat → UInt8) (fi fb : Nat) (P : Nat → Nat → Nat) (nb : Nat → Nat) (c : Nat → List UInt8) :
    Prop where
  alloc : Alloc fi fb P nb
  fi_pos : 1 ≤ fi
  fi_le : fi ≤ 208
  super : ∀ o < 512, v (512 + o) = superblock o
  zero : ∀ b, fb ≤ b → b < FSSIZE → ∀ o < 512, v (b * 512 + o) = 0
  type : ∀ i, 1 ≤ i → i < fi → getLE v (IADDR i) 2 = if i = ROOTINO then T_DIR else T_FILE
  size : ∀ i, 1 ≤ i → i < fi → getLE v (IADDR i + sizeAt) 4 = (c i).length
  direct : ∀ i, 1 ≤ i → i < fi → ∀ n < NDIRECT, getLE v (IADDR i + addrAt n) 4 = P i n
  indirect : ∀ i, 1 ≤ i → i < fi → getLE v (IADDR i + addrAt NDIRECT) 4 = P i IND
  entry : ∀ i, P i IND ≠ 0 → ∀ j < NINDIRECT, getLE v (P i IND * 512 + 4 * j) 4 = P i (NDIRECT + j)
  data : ∀ i o (h : o < (c i).length), v (P i (o / 512) * 512 + o % 512) = (c i)[o]
  fits : ∀ i, (c i).length ≤ 512 * nb i

/-- `v'` is `v` but for `[lo, hi)`. -/
def Same (v v' : Nat → UInt8) (lo hi : Nat) : Prop := ∀ a, a < lo ∨ hi ≤ a → v' a = v a

theorem same_paste (v : Nat → UInt8) (o k : Nat) (src : Nat → UInt8) : Same v (paste v o k src) o (o + k) :=
  fun _ h => paste_out h

variable {v v' : Nat → UInt8} {k o : Nat}

theorem Same.getLE_eq {lo hi : Nat} (h : Same v v' lo hi) (ho : o + k ≤ lo ∨ hi ≤ o) :
    getLE v' o k = getLE v o k := getLE_congr fun a h1 h2 => h a (by omega)

variable {p j : Nat} {src : Nat → UInt8}

section

/-- A change within inode `i`. -/
abbrev SameBut (v v' : Nat → UInt8) (i : Nat) : Prop := Same v v' (IADDR i) (IADDR i + 64)

/-- A change within block `x`. -/
abbrev SameOut (v v' : Nat → UInt8) (x : Nat) : Prop := Same v v' (x * 512) (x * 512 + 512)

variable {b : Nat}

theorem sameBut_paste (h : p + k ≤ 64) : SameBut v (paste v (IADDR i + p) k src) i :=
  fun _ ha => paste_out (by omega)

theorem sameOut_paste (h : p + k ≤ 512) : SameOut v (paste v (x * 512 + p) k src) x := by
  intro a ha
  apply paste_out
  rw [add_assoc]
  exact ha.imp (fun h1 => h1.trans_le (Nat.le_add_right _ _)) ((Nat.add_le_add_left h _).trans ·)

theorem SameBut.super (h : SameBut v v' i) (ho : o < 512) : v' (512 + o) = v (512 + o) :=
  h _ (.inl (by rw [IADDR_eq]; omega))

theorem SameBut.inode (h : SameBut v v' i) {m j : Nat} (hm : m ≠ i) (hk : k + j ≤ 64) :
    getLE v' (IADDR m + k) j = getLE v (IADDR m + k) j :=
  h.getLE_eq (by rw [IADDR_eq, IADDR_eq]; omega)

theorem inode_putLE {m q : Nat} (hp : p + k ≤ 64) (hq : q + j ≤ 64) (h : m ≠ i ∨ p + k ≤ q ∨ q + j ≤ p) :
    getLE (putLE v (IADDR i + p) k x) (IADDR m + q) j = getLE v (IADDR m + q) j :=
  getLE_putLE_out (by rw [IADDR_eq, IADDR_eq]; omega)

theorem SameBut.block (h : SameBut v v' i) (hi : i < 208) (hb : 59 ≤ b) : v' (b * 512 + o) = v (b * 512 + o) :=
  h _ (.inr (by rw [IADDR_eq]; omega))

theorem SameBut.entry (h : SameBut v v' i) (hi : i < 208) (hb : 59 ≤ b) :
    getLE v' (b * 512 + o) k = getLE v (b * 512 + o) k :=
  h.getLE_eq (.inr (by rw [IADDR_eq]; omega))

theorem SameOut.super (h : SameOut v v' x) (hx : 58 ≤ x) (ho : o < 512) : v' (512 + o) = v (512 + o) :=
  h _ (.inl (by omega))

theorem SameOut.inode (h : SameOut v v' x) (hx : 58 ≤ x) {m j : Nat} (hm : m < 208) (hk : k + j ≤ 64) :
    getLE v' (IADDR m + k) j = getLE v (IADDR m + k) j :=
  h.getLE_eq (.inl (by rw [IADDR_eq]; omega))

theorem SameOut.block (h : SameOut v v' x) (hb : b ≠ x) (ho : o < 512) : v' (b * 512 + o) = v (b * 512 + o) :=
  h _ (by omega)

theorem SameOut.entry (h : SameOut v v' x) (hb : b ≠ x) (ho : o + k ≤ 512) :
    getLE v' (b * 512 + o) k = getLE v (b * 512 + o) k :=
  h.getLE_eq (by omega)

end

namespace Good

variable {c : Nat → List UInt8}

theorem block_ge (hg : Good v fi fb P nb c) {n : Nat} (h : P i n ≠ 0) : 59 ≤ P i n := (hg.alloc.range i n h).1

theorem block_ne_zero (hg : Good v fi fb P nb c) {o : Nat} (h : o < (c i).length) : P i (o / 512) ≠ 0 := by
  have hf := hg.fits i
  have hle := hg.alloc.le i
  have hn : o / 512 < nb i := by omega
  exact (hg.alloc.upto i _ (by omega)).2 hn

/-- A pointer that inode `i` itself holds is set to the next free block: pointer `k` of the inode, `n` of the file. -/
theorem setAddr {nb' : Nat → Nat} (hg : Good v fi fb P nb c) (hi : 1 ≤ i) (hfi : i < fi)
    (hk : k < NDIRECT ∧ n = k ∨ k = NDIRECT ∧ n = IND) (h0 : P i n = 0) (ha : Alloc fi (fb + 1) (setP P i n fb) nb')
    (hle : ∀ m, nb m ≤ nb' m) (hfb : fb < FSSIZE) :
    Good (putLE v (IADDR i + addrAt k) 4 fb) fi (fb + 1) (setP P i n fb) nb' c := by
  have hND : NDIRECT = 12 := rfl
  have hNI : NINDIRECT = 128 := rfl
  have hi' : i < 208 := hfi.trans_le hg.fi_le
  have hk4 : addrAt k + 4 ≤ 64 := by rw [addrAt_eq]; omega
  have hin : SameBut v (putLE v (IADDR i + addrAt k) 4 fb) i := sameBut_paste hk4
  have hhere : getLE (putLE v (IADDR i + addrAt k) 4 fb) (IADDR i + addrAt k) 4 = fb := by
    rw [getLE_putLE]; exact Nat.mod_eq_of_lt (by unfold FSSIZE at hfb; omega)
  have hfront : 12 ≤ addrAt k := by rw [addrAt_eq]; omega
  refine ⟨ha, hg.fi_pos, hg.fi_le, ?_, ?_, ?_, ?_, ?_, ?_, ?_, ?_, ?_⟩
  · exact fun o ho => (hin.super ho).trans (hg.super o ho)
  · exact fun b hb hlt o ho =>
      (hin.block hi' (hg.alloc.fb_ge.trans (Nat.le_of_succ_le hb))).trans (hg.zero b (Nat.le_of_succ_le hb) hlt o ho)
  · exact fun m hm hmf => (inode_putLE (q := 0) hk4 (by decide) (.inr (.inr (by omega)))).trans (hg.type m hm hmf)
  · exact fun m hm hmf => (inode_putLE hk4 (by decide) (.inr (.inr hfront))).trans (hg.size m hm hmf)
  · intro m hm hmf n' hn'
    by_cases he : m = i ∧ n' = n
    · obtain ⟨rfl, rfl⟩ := he
      have hkn : k = n' := by rw [IND_eq] at hk; omega
      rw [setP_self, ← hkn]
      exact hhere
    · rw [setP_of_ne (not_and_or.1 he), ← hg.direct m hm hmf n' hn']
      exact inode_putLE hk4 (by rw [addrAt_eq]; omega) (by rw [addrAt_eq, addrAt_eq]; omega)
  · intro m hm hmf
    by_cases he : m = i ∧ IND = n
    · obtain ⟨rfl, rfl⟩ := he
      have hkn : k = NDIRECT := by rw [IND_eq] at hk; omega
      rw [setP_self, ← hkn]
      exact hhere
    · rw [setP_of_ne (not_and_or.1 he), ← hg.indirect m hm hmf]
      exact inode_putLE hk4 (by decide) (by rw [addrAt_eq, addrAt_eq]; omega)
  · intro m hne j hj
    have hk' : NDIRECT + j ≠ n := by
      rw [IND_eq] at hk; omega
    rw [setP_of_ne (.inr hk')]
    by_cases he : m = i ∧ IND = n
    · -- the new block of pointers is all zeros, and the file has none of the blocks behind it
      obtain ⟨rfl, rfl⟩ := he
      have hnb : nb m ≤ NDIRECT := not_lt.1 fun h => (hg.alloc.ind m).1 h h0
      have hno : ¬P m (NDIRECT + j) ≠ 0 := fun h => by
        have := (hg.alloc.upto m (NDIRECT + j) (by unfold MAXFILE; omega)).1 h; omega
      rw [setP_self, not_not.1 hno, hin.entry hi' hg.alloc.fb_ge]
      refine getLE_zero fun a h1 h2 => ?_
      obtain ⟨o, rfl⟩ := Nat.exists_eq_add_of_le (Nat.le_of_add_right_le h1)
      exact hg.zero fb le_rfl hfb o (by omega)
    · rw [setP_of_ne (not_and_or.1 he)] at hne ⊢
      rw [← hg.entry m hne j hj]
      exact hin.entry hi' (hg.block_ge hne)
  · intro m o ho
    have hb := hg.block_ne_zero ho
    have hne : m ≠ i ∨ o / 512 ≠ n := by
      rw [← not_and_or]; rintro ⟨rfl, rfl⟩; exact hb h0
    rw [setP_of_ne hne, hin.block hi' (hg.block_ge hb)]
    exact hg.data m o ho
  · exact fun m => (hg.fits m).trans (Nat.mul_le_mul_left _ (hle m))

theorem le_update_succ (nb : Nat → Nat) (i m : Nat) : nb m ≤ update nb i (nb i + 1) m := by
  by_cases he : m = i
  · rw [he, update_self]; exact Nat.le_succ _
  · rw [update_of_ne he]

theorem none_at (hg : Good v fi fb P nb c) (h : nb i < MAXFILE) : P i (nb i) = 0 :=
  not_not.1 fun h0 => lt_irrefl _ ((hg.alloc.upto i (nb i) h).1 h0)

section

variable (hg : Good v fi fb P nb c) (hi : 1 ≤ i) (hfi : i < fi)

include hg hi hfi

theorem setDirect (hn : nb i < NDIRECT) (hfb : fb < FSSIZE) :
    Good (putLE v (IADDR i + addrAt (nb i)) 4 fb) fi (fb + 1) (setP P i (nb i) fb) (update nb i (nb i + 1)) c := by
  have hlt : nb i < MAXFILE := hn.trans_le (by decide)
  apply hg.setAddr hi hfi (.inl ⟨hn, rfl⟩) (hg.none_at hlt) _ (le_update_succ nb i) hfb
  exact hg.alloc.setBlock hi hfi hlt fun h => absurd hn (not_lt.2 h)

theorem setInd (hn : nb i = NDIRECT) (h0 : P i IND = 0) (hfb : fb < FSSIZE) :
    Good (putLE v (IADDR i + addrAt NDIRECT) 4 fb) fi (fb + 1) (setP P i IND fb) nb c :=
  hg.setAddr hi hfi (.inr ⟨rfl, rfl⟩) h0 (hg.alloc.setInd hi hfi hn) (fun _ => le_rfl) hfb

theorem setEntry (hj : nb i = NDIRECT + j) (hlt : j < NINDIRECT) (h0 : P i IND ≠ 0) (hfb : fb < FSSIZE) :
    Good (putLE v (P i IND * 512 + 4 * j) 4 fb) fi (fb + 1) (setP P i (nb i) fb) (update nb i (nb i + 1)) c := by
  have hND : NDIRECT = 12 := rfl
  have hNI : NINDIRECT = 128 := rfl
  have hMX : nb i < MAXFILE := by unfold MAXFILE; omega
  have hge := hg.block_ge h0
  have hge' := Nat.le_of_succ_le hge
  have hlt' := (hg.alloc.range i IND h0).2
  have hx : SameOut v (putLE v (P i IND * 512 + 4 * j) 4 fb) (P i IND) := sameOut_paste (by omega)
  have hP : ∀ {m n'}, n' ≠ nb i → setP P i (nb i) fb m n' = P m n' := fun h => setP_of_ne (.inr h)
  have hI : IND ≠ nb i := by rw [IND_eq]; omega
  refine ⟨hg.alloc.setBlock hi hfi hMX fun _ => h0, hg.fi_pos, hg.fi_le, ?_, ?_, ?_, ?_, ?_, ?_, ?_, ?_, ?_⟩
  · exact fun o ho => (hx.super hge' ho).trans (hg.super o ho)
  · exact fun b hb hbl o ho => (hx.block (by omega) ho).trans (hg.zero b (Nat.le_of_succ_le hb) hbl o ho)
  · exact fun m hm hmf => (hx.inode (k := 0) hge' (hmf.trans_le hg.fi_le) (by omega)).trans (hg.type m hm hmf)
  · exact fun m hm hmf => (hx.inode hge' (hmf.trans_le hg.fi_le) (by decide)).trans (hg.size m hm hmf)
  · intro m hm hmf n' hn'
    rw [hP (by omega), ← hg.direct m hm hmf n' hn']
    exact hx.inode hge' (hmf.trans_le hg.fi_le) (by rw [addrAt_eq]; omega)
  · intro m hm hmf
    rw [hP hI, ← hg.indirect m hm hmf]
    exact hx.inode hge' (hmf.trans_le hg.fi_le) (by decide)
  · intro m hne j' hj'
    rw [hP hI] at hne ⊢
    by_cases he : m = i
    · subst he
      by_cases hjj : j' = j
      · rw [hjj, ← hj, setP_self, getLE_putLE]
        exact Nat.mod_eq_of_lt (by unfold FSSIZE at hfb; omega)
      · rw [hP (by omega), ← hg.entry m hne j' hj']; exact getLE_putLE_out (by omega)
    · rw [setP_of_ne (.inl he), ← hg.entry m hne j' hj']
      exact hx.entry (fun h => he (hg.alloc.inj m IND i IND hne h).1) (by omega)
  · intro m o ho
    have hb := hg.block_ne_zero ho
    have hne : m ≠ i ∨ o / 512 ≠ nb i := by
      rw [← not_and_or]
      rintro ⟨rfl, he⟩
      rw [he] at hb
      exact hb (hg.none_at hMX)
    rw [setP_of_ne hne, hx.block _ (Nat.mod_lt _ (by decide))]
    · exact hg.data m o ho
    · intro he
      have hI' := (hg.alloc.inj m _ i IND hb he).2
      have hf := hg.fits m
      have hle := hg.alloc.le m
      rw [IND_eq] at hI'
      unfold MAXFILE at hle
      omega
  · exact fun m => (hg.fits m).trans (Nat.mul_le_mul_left _ (le_update_succ nb i m))

/-- `k` bytes of `p` are written behind the file, within its last block, and the size says so. -/
theorem write {p : List UInt8} (hn : (c i).length / 512 < nb i) (hk : k ≤ p.length)
    (hin : (c i).length % 512 + k ≤ 512) :
    Good (putLE (paste v (P i ((c i).length / 512) * 512 + (c i).length % 512) k (ofList p)) (IADDR i + sizeAt) 4
      ((c i).length + k)) fi fb P nb (update c i (c i ++ p.take k)) := by
  have hND : NDIRECT = 12 := rfl
  have hMX := hg.alloc.le i
  unfold MAXFILE at hMX
  have hi' : i < 208 := hfi.trans_le hg.fi_le
  have h0 : P i ((c i).length / 512) ≠ 0 := (hg.alloc.upto i _ (by unfold MAXFILE; omega)).2 hn
  have hge := hg.block_ge h0
  have hge' := Nat.le_of_succ_le hge
  have hlt := (hg.alloc.range i _ h0).2
  generalize hv1 : paste v (P i ((c i).length / 512) * 512 + (c i).length % 512) k (ofList p) = v1
  have hx : SameOut v v1 (P i ((c i).length / 512)) := hv1 ▸ sameOut_paste hin
  have hb : SameBut v1 (putLE v1 (IADDR i + sizeAt) 4 ((c i).length + k)) i := sameBut_paste (by decide)
  have hblock : ∀ {m n : Nat}, P m n ≠ 0 → (P i ((c i).length / 512) = P m n → False) → ∀ o < 512,
      putLE v1 (IADDR i + sizeAt) 4 ((c i).length + k) (P m n * 512 + o) = v (P m n * 512 + o) := fun hm hne o ho =>
    (hb.block hi' (hg.block_ge hm)).trans (hx.block (fun h => hne h.symm) ho)
  have hinode : ∀ {m q j : Nat}, m < 208 → q + j ≤ 64 → m ≠ i ∨ sizeAt + 4 ≤ q ∨ q + j ≤ sizeAt →
      getLE (putLE v1 (IADDR i + sizeAt) 4 ((c i).length + k)) (IADDR m + q) j =
        getLE v (IADDR m + q) j := fun hm hq ho =>
    (inode_putLE (by decide) hq ho).trans (hx.inode hge' hm hq)
  refine ⟨hg.alloc, hg.fi_pos, hg.fi_le, ?_, ?_, ?_, ?_, ?_, ?_, ?_, ?_, ?_⟩
  · exact fun o ho => ((hb.super ho).trans (hx.super hge' ho)).trans (hg.super o ho)
  · exact fun b hfb hbl o ho => ((hb.block hi' (hg.alloc.fb_ge.trans hfb)).trans
      (hx.block (ne_of_gt (hlt.trans_le hfb)) ho)).trans (hg.zero b hfb hbl o ho)
  · exact fun m hm hmf => (hinode (q := 0) (hmf.trans_le hg.fi_le) (by decide) (.inr (.inr (by decide)))).trans
      (hg.type m hm hmf)
  · intro m hm hmf
    by_cases he : m = i
    · rw [he, update_self, List.length_append, List.length_take, min_eq_left hk, getLE_putLE]
      exact Nat.mod_eq_of_lt (by omega)
    · rw [update_of_ne he, ← hg.size m hm hmf]
      exact hinode (hmf.trans_le hg.fi_le) (by decide) (.inl he)
  · intro m hm hmf n hn'
    rw [← hg.direct m hm hmf n hn']
    exact hinode (hmf.trans_le hg.fi_le) (by rw [addrAt_eq]; omega)
      (.inr (.inl (by rw [addrAt_eq]; exact Nat.le_add_right 12 _)))
  · intro m hm hmf
    rw [← hg.indirect m hm hmf]
    exact hinode (hmf.trans_le hg.fi_le) (by decide) (.inr (.inl (by decide)))
  · intro m hne j hj
    rw [← hg.entry m hne j hj, hb.entry hi' (hg.block_ge hne)]
    apply hx.entry
    · intro he
      have hI := (hg.alloc.inj _ _ _ _ hne he).2
      rw [IND_eq] at hI
      omega
    · have hNI : NINDIRECT = 128 := rfl; omega
  · intro m o ho
    by_cases he : m = i
    · subst he
      simp only [update_self] at ho ⊢
      rw [List.length_append, List.length_take, min_eq_left hk] at ho
      rcases lt_or_ge o (c m).length with hol | hol
      · -- a byte of the file as it was, in another block or in front of the piece
        have hdat := hg.data m o hol
        rw [List.getElem_append_left hol, ← hdat, hb.block hi' (hg.block_ge (hg.block_ne_zero hol)), ← hv1]
        apply paste_out
        by_cases hq : o / 512 = (c m).length / 512
        · rw [hq]; omega
        · have hne : P m (o / 512) ≠ P m ((c m).length / 512) := fun h =>
            hq (hg.alloc.inj _ _ _ _ (hg.block_ne_zero hol) h).2
          omega
      · have hq : o / 512 = (c m).length / 512 := by omega
        rw [hq, hb.block hi' hge, ← hv1, List.getElem_append_right hol, List.getElem_take]
        have hoff : o % 512 = (c m).length % 512 + (o - (c m).length) := by omega
        rw [hoff, ← add_assoc, paste_add (by omega), ofList_eq (by omega)]
    · simp only [update_of_ne he] at ho ⊢
      have hm := hg.block_ne_zero ho
      rw [hblock hm (fun h => he (hg.alloc.inj _ _ _ _ h0 h).1.symm) _ (Nat.mod_lt _ (by decide))]
      exact hg.data m o ho
  · intro m
    by_cases he : m = i
    · rw [he, update_self, List.length_append, List.length_take, min_eq_left hk]; omega
    · rw [update_of_ne he]; exact hg.fits m

end

theorem fresh (hg : Good v fi fb P nb c) (h : fi ≤ i) : c i = [] := by
  have h1 := hg.fits i
  have h2 := (hg.alloc.fresh i (.inr h)).1
  exact List.eq_nil_of_length_eq_zero (by omega)

theorem inode {d : Buf} (hg : Good v fi fb P nb c) (hfi : fi < 208)
    (ht : getLE d 0 2 = if fi = ROOTINO then T_DIR else T_FILE) (hz : ∀ a, sizeAt ≤ a → a < 64 → d a = 0) :
    Good (paste v (IADDR fi) 64 d) (fi + 1) fb P nb c := by
  have hND : NDIRECT = 12 := rfl
  have hb : SameBut v (paste v (IADDR fi) 64 d) fi := sameBut_paste (p := 0) (by decide)
  have hfr := hg.alloc.fresh fi (.inr le_rfl)
  have hnew : ∀ {q : Nat}, sizeAt ≤ q → q + 4 ≤ 64 → getLE (paste v (IADDR fi) 64 d) (IADDR fi + q) 4 = 0 := by
    intro q h1 h2
    rw [getLE_paste h2]
    exact getLE_zero fun a ha hq => hz a (h1.trans ha) (by omega)
  refine ⟨?_, Nat.le_succ_of_le hg.fi_pos, hfi, ?_, ?_, ?_, ?_, ?_, ?_, ?_, ?_, hg.fits⟩
  · exact { hg.alloc with fresh := fun m hm => hg.alloc.fresh m (hm.imp_right Nat.le_of_succ_le) }
  · exact fun o ho => (hb.super ho).trans (hg.super o ho)
  · exact fun b hfb hbl o ho => (hb.block hfi (hg.alloc.fb_ge.trans hfb)).trans (hg.zero b hfb hbl o ho)
  · intro m hm hmf
    by_cases he : m = fi
    · rw [he, ← ht]; exact getLE_paste (p := 0) (by decide)
    · rw [← hg.type m hm (by omega)]; exact hb.inode (k := 0) he (by decide)
  · intro m hm hmf
    by_cases he : m = fi
    · rw [he, hg.fresh le_rfl]; exact hnew le_rfl (by decide)
    · rw [← hg.size m hm (by omega)]; exact hb.inode he (by decide)
  · intro m hm hmf n hn
    by_cases he : m = fi
    · rw [he, hfr.2 n]
      exact hnew (by rw [addrAt_eq]; unfold sizeAt; omega) (by rw [addrAt_eq]; omega)
    · rw [← hg.direct m hm (by omega) n hn]; exact hb.inode he (by rw [addrAt_eq]; omega)
  · intro m hm hmf
    by_cases he : m = fi
    · rw [he, hfr.2 IND]; exact hnew (by decide) (by decide)
    · rw [← hg.indirect m hm (by omega)]; exact hb.inode he (by decide)
  · exact fun m hne j hj => (hb.entry hfi (hg.block_ge hne)).trans (hg.entry m hne j hj)
  · exact fun m o ho => (hb.block hfi (hg.block_ge (hg.block_ne_zero ho))).trans (hg.data m o ho)

end Good

end Xv6.Mkfs
