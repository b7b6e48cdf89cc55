/-
What `iappend` does. The loop works on a copy of the inode, so what it stands for is seen in a view: the image
with that copy and the size reached put in their place. Each turn finds the block, taking one or two of the
free ones where the file ends at a block boundary, and writes one piece. The blocks taken are counted
exactly, so an append fails exactly when the file would be too long or the blocks run out.
-/
import Xv6.Base.Outcome
import Xv6.Mkfs.Layout

namespace Xv6.Mkfs

open Base Fs Function

/-! ## Equations of the code -/

variable {w : Work} {fbn x : Nat}

section

variable {ib : Nat}

/-- The block of pointers is taken where the inode has none. -/
def takeInd (w : Work) : Work :=
  if getLE w.din (addrAt NDIRECT) 4 = 0 then
    { w with din := putLE w.din (addrAt NDIRECT) 4 w.freeblock, freeblock := w.freeblock + 1 }
  else w

/-- The pointer in the block of pointers. -/
def takeEntry (w : Work) (fbn : Nat) : Option (Nat × Work) := do
  let ib := getLE w.din (addrAt NDIRECT) 4
  let indirect ← rsect w.img ib
  if getLE indirect (4 * (fbn - NDIRECT)) 4 = 0 then
    let indirect := putLE indirect (4 * (fbn - NDIRECT)) 4 w.freeblock
    some (getLE indirect (4 * (fbn - NDIRECT)) 4,
      { w with img := wsect w.img ib indirect, freeblock := w.freeblock + 1 })
  else some (getLE indirect (4 * (fbn - NDIRECT)) 4, w)

theorem locate_indirect (h : NDIRECT ≤ fbn) : locate w fbn = takeEntry (takeInd w) fbn :=
  if_neg (not_lt.2 h)

theorem locate_old (h : fbn < NDIRECT) (hx : getLE w.din (addrAt fbn) 4 ≠ 0) :
    locate w fbn = some (getLE w.din (addrAt fbn) 4, w) := by
  rw [locate, if_pos h, if_neg hx]

theorem locate_new (h : fbn < NDIRECT) (hx : getLE w.din (addrAt fbn) 4 = 0) (hfb : w.freeblock < 256 ^ 4) :
    locate w fbn = some (w.freeblock,
      { w with din := putLE w.din (addrAt fbn) 4 w.freeblock, freeblock := w.freeblock + 1 }) := by
  rw [locate, if_pos h, if_pos hx]
  simp only [getLE_putLE]
  rw [Nat.mod_eq_of_lt hfb]

theorem rsect_FSSIZE {img : Img} (hl : img.len = FSSIZE * BSIZE) : rsect img FSSIZE = none := by
  rw [rsect, seek_eq (by decide), hl]; rfl

theorem takeEntry_none (hl : w.img.len = FSSIZE * BSIZE) (hib : getLE w.din (addrAt NDIRECT) 4 = FSSIZE) :
    takeEntry w fbn = none := by
  rw [takeEntry, hib, rsect_FSSIZE hl]
  rfl

theorem takeEntry_old (hl : w.img.len = FSSIZE * BSIZE) (hib : getLE w.din (addrAt NDIRECT) 4 = ib)
    (hlt : ib < FSSIZE) (hx : getLE w.img.bytes (ib * 512 + 4 * (fbn - NDIRECT)) 4 = x) (h0 : x ≠ 0) :
    takeEntry w fbn = some (x, w) := by
  rw [takeEntry, hib, rsect_eq hl hlt]
  show (if _ then _ else _) = _
  rw [getLE_slice, hx, if_neg h0]

theorem takeEntry_new (hl : w.img.len = FSSIZE * BSIZE) (hib : getLE w.din (addrAt NDIRECT) 4 = ib)
    (hlt : ib < FSSIZE) (hx : getLE w.img.bytes (ib * 512 + 4 * (fbn - NDIRECT)) 4 = 0) (hf : fbn < MAXFILE)
    (hfb : w.freeblock < 256 ^ 4) :
    takeEntry w fbn = some (w.freeblock,
      { w with img := ⟨putLE w.img.bytes (ib * 512 + 4 * (fbn - NDIRECT)) 4 w.freeblock, w.img.len⟩,
               freeblock := w.freeblock + 1 }) := by
  have hp : 4 * (fbn - NDIRECT) + 4 ≤ 512 := by
    unfold MAXFILE at hf; unfold NDIRECT; omega
  rw [takeEntry, hib, rsect_eq hl hlt]
  show (if _ then _ else _) = _
  rw [getLE_slice, hx, if_pos rfl, getLE_putLE, Nat.mod_eq_of_lt hfb, wsect_eq hl hlt, putLE, paste_slice hp]
  rfl

end

/-! ## The view -/

/-- The image with the copy of inode `i` that the loop works on, and the size reached. -/
def view (w : Work) (i off : Nat) : Nat → UInt8 :=
  putLE (paste w.img.bytes (IADDR i) 64 w.din) (IADDR i + sizeAt) 4 off

variable {i k off : Nat}

theorem view_addr (hk : k ≤ NDIRECT) : getLE (view w i off) (IADDR i + addrAt k) 4 = getLE w.din (addrAt k) 4 := by
  unfold NDIRECT at hk
  rw [view, getLE_putLE_out (.inr (by rw [addrAt_eq]; unfold sizeAt; omega))]
  exact getLE_paste (by rw [addrAt_eq]; omega)

theorem view_entry (hi : i < 208) {b o : Nat} (hb : 59 ≤ b) :
    getLE (view w i off) (b * 512 + o) k = getLE w.img.bytes (b * 512 + o) k := by
  rw [view, getLE_putLE_out (.inr (by rw [IADDR_eq]; unfold sizeAt; omega))]
  exact getLE_paste_out (.inr (by rw [IADDR_eq]; omega))

theorem view_setAddr (hk : k ≤ NDIRECT) (fb : Nat) :
    view { w with din := putLE w.din (addrAt k) 4 x, freeblock := fb } i off =
      putLE (view w i off) (IADDR i + addrAt k) 4 x := by
  unfold NDIRECT at hk
  show putLE (paste w.img.bytes (IADDR i) 64 (paste w.din (addrAt k) 4 (bytesLE x))) _ _ _ = _
  rw [paste_paste (by rw [addrAt_eq]; omega)]
  exact paste_comm (.inr (by rw [addrAt_eq]; unfold sizeAt; omega))

theorem view_paste (hi : i < 208) {b p : Nat} (hb : 59 ≤ b) {src : Nat → UInt8} (len fb : Nat) :
    view { w with img := ⟨paste w.img.bytes (b * 512 + p) k src, len⟩, freeblock := fb } i off =
      paste (view w i off) (b * 512 + p) k src := by
  show putLE (paste (paste w.img.bytes (b * 512 + p) k src) (IADDR i) 64 w.din) _ _ _ = _
  rw [paste_comm (.inr (by rw [IADDR_eq]; omega))]
  exact paste_comm (.inr (by rw [IADDR_eq]; unfold sizeAt; omega))

theorem view_size (off off' : Nat) : putLE (view w i off) (IADDR i + sizeAt) 4 off' = view w i off' := paste_again

theorem paste_view : paste w.img.bytes (IADDR i) 64 (putLE w.din sizeAt 4 off) = view w i off := paste_paste (by decide)

theorem view_start (img : Img) (fb : Nat) (h : getLE img.bytes (IADDR i + sizeAt) 4 = off) :
    view ⟨img, fb, slice img.bytes (IADDR i)⟩ i off = img.bytes := by
  rw [view, paste_self, ← h, putLE_getLE]

/-! ## Finding the block -/

/-- The blocks that a file of `k` bytes takes, its block of pointers among them. -/
def used (k : Nat) : Nat := nblocks k + if NDIRECT * BSIZE < k then 1 else 0

theorem used_eq (k : Nat) : used k = (k + 511) / 512 + if 6144 < k then 1 else 0 := rfl

/-- No file has a block that it does not need. -/
structure Tight (P : Nat → Nat → Nat) (nb : Nat → Nat) (c : Nat → List UInt8) : Prop where
  blocks : ∀ i, 512 * nb i < (c i).length + 512
  ind : ∀ i, P i IND ≠ 0 → NDIRECT < nb i

/-- In front of a write: the block of file `i` where it ends is there. -/
structure Ready (w : Work) (i off fi : Nat) (P : Nat → Nat → Nat) (nb : Nat → Nat) (c : Nat → List UInt8) : Prop where
  good : Good (view w i off) fi w.freeblock P nb c
  len : w.img.len = FSSIZE * BSIZE
  fb_le : w.freeblock ≤ FSSIZE
  here : nb i = off / 512 + 1
  blocks : ∀ m, m ≠ i → 512 * nb m < (c m).length + 512
  ind : ∀ m, P m IND ≠ 0 → NDIRECT < nb m

variable {fi : Nat} {P : Nat → Nat → Nat} {nb : Nat → Nat} {c : Nat → List UInt8}

theorem takeEntry_spec (hg : Good (view w i off) fi w.freeblock P nb c) (hl : w.img.len = FSSIZE * BSIZE)
    (hle : w.freeblock ≤ FSSIZE) (hi : 1 ≤ i) (hfi : i < fi) (h1 : NDIRECT ≤ fbn) (h2 : fbn < MAXFILE)
    (hI : P i IND ≠ 0) :
    (P i fbn ≠ 0 → takeEntry w fbn = some (P i fbn, w)) ∧
      (P i fbn = 0 → takeEntry w fbn = some (w.freeblock,
        { w with img := ⟨putLE w.img.bytes (P i IND * 512 + 4 * (fbn - NDIRECT)) 4 w.freeblock, w.img.len⟩,
                 freeblock := w.freeblock + 1 })) := by
  have hMX : MAXFILE = NDIRECT + NINDIRECT := rfl
  have hi' : i < 208 := hfi.trans_le hg.fi_le
  have hib : getLE w.din (addrAt NDIRECT) 4 = P i IND := by
    rw [← view_addr le_rfl, hg.indirect i hi hfi]
  have hlt : P i IND < FSSIZE := lt_of_lt_of_le (hg.alloc.range i IND hI).2 hle
  have hx : getLE w.img.bytes (P i IND * 512 + 4 * (fbn - NDIRECT)) 4 = P i fbn := by
    rw [← view_entry hi' (hg.block_ge hI), hg.entry i hI (fbn - NDIRECT) (by omega),
      Nat.add_sub_cancel' h1]
  constructor
  · exact takeEntry_old hl hib hlt hx
  · intro h0
    exact takeEntry_new hl hib hlt (hx.trans h0) h2 (hle.trans_lt (by decide))

theorem locate_there (hg : Good (view w i off) fi w.freeblock P nb c) (hl : w.img.len = FSSIZE * BSIZE)
    (hle : w.freeblock ≤ FSSIZE) (hi : 1 ≤ i) (hfi : i < fi) {fbn : Nat} (h : nb i = fbn + 1) :
    locate w fbn = some (P i fbn, w) := by
  have hlt : fbn < MAXFILE := by
    have := hg.alloc.le i; omega
  have h0 : P i fbn ≠ 0 := (hg.alloc.upto i fbn hlt).2 (by omega)
  by_cases hd : fbn < NDIRECT
  · have hx : getLE w.din (addrAt fbn) 4 = P i fbn := by
      rw [← view_addr hd.le, hg.direct i hi hfi fbn hd]
    rw [locate_old hd (by rw [hx]; exact h0), hx]
  · have hd' := not_lt.1 hd
    have hI := (hg.alloc.ind i).1 (by omega)
    have hin : takeInd w = w := by
      rw [takeInd, ← view_addr le_rfl, hg.indirect i hi hfi, if_neg hI]
    rw [locate_indirect hd', hin]
    exact (takeEntry_spec hg hl hle hi hfi hd' hlt hI).1 h0

theorem locate_direct (hg : Good (view w i off) fi w.freeblock P nb c) (hi : 1 ≤ i) (hfi : i < fi)
    (hle : w.freeblock ≤ FSSIZE) (h : nb i < NDIRECT) :
    ∃ w', locate w (nb i) = some (w.freeblock, w') ∧ w'.freeblock = w.freeblock + 1 ∧ w'.img = w.img ∧
      (w.freeblock < FSSIZE → Good (view w' i off) fi (w.freeblock + 1) (setP P i (nb i) w.freeblock)
        (update nb i (nb i + 1)) c) := by
  have hx : getLE w.din (addrAt (nb i)) 4 = 0 := by
    rw [← view_addr h.le, hg.direct i hi hfi _ h, hg.none_at (h.trans_le (by decide))]
  refine ⟨_, locate_new h hx (hle.trans_lt (by decide)), rfl, rfl, fun hlt => ?_⟩
  rw [view_setAddr h.le]
  exact hg.setDirect hi hfi h hlt

theorem takeEntry_next (hg : Good (view w i off) fi w.freeblock P nb c) (hl : w.img.len = FSSIZE * BSIZE) (hi : 1 ≤ i)
    (hfi : i < fi) (hle : w.freeblock ≤ FSSIZE) (h1 : NDIRECT ≤ nb i) (h2 : nb i < MAXFILE) (hI : P i IND ≠ 0) :
    ∃ w', takeEntry w (nb i) = some (w.freeblock, w') ∧ w'.freeblock = w.freeblock + 1 ∧ w'.img.len = w.img.len ∧
      (w.freeblock < FSSIZE → Good (view w' i off) fi (w.freeblock + 1) (setP P i (nb i) w.freeblock)
        (update nb i (nb i + 1)) c) := by
  refine ⟨_, (takeEntry_spec hg hl hle hi hfi h1 h2 hI).2 (hg.none_at h2), rfl, rfl, fun hlt => ?_⟩
  rw [putLE, view_paste (hfi.trans_le hg.fi_le) (hg.block_ge hI)]
  have hMX : MAXFILE = NDIRECT + NINDIRECT := rfl
  have hj : nb i - NDIRECT < NINDIRECT := by omega
  exact hg.setEntry hi hfi (Nat.add_sub_cancel' h1).symm hj hI hlt

theorem takeInd_next (hg : Good (view w i off) fi w.freeblock P nb c) (hi : 1 ≤ i) (hfi : i < fi)
    (hn : nb i = NDIRECT) (hI : P i IND = 0) : (takeInd w).freeblock = w.freeblock + 1 ∧ (takeInd w).img = w.img ∧
      (w.freeblock < 256 ^ 4 → getLE (takeInd w).din (addrAt NDIRECT) 4 = w.freeblock) ∧
      (w.freeblock < FSSIZE → Good (view (takeInd w) i off) fi (w.freeblock + 1) (setP P i IND w.freeblock) nb c) := by
  have hx : getLE w.din (addrAt NDIRECT) 4 = 0 := by
    rw [← view_addr le_rfl, hg.indirect i hi hfi, hI]
  rw [takeInd, if_pos hx]
  refine ⟨rfl, rfl, fun hfb => ?_, fun hlt => ?_⟩
  · exact (getLE_putLE _ _ _ _).trans (Nat.mod_eq_of_lt hfb)
  · rw [view_setAddr le_rfl]; exact hg.setInd hi hfi hn hI hlt

/-- The outcome of `locate`: the block, with the blocks taken for it counted, or the image is too small. -/
def Found (w : Work) (i off fi : Nat) (c : Nat → List UInt8) : Prop :=
  (∃ P nb w', locate w (off / 512) = some (P i (off / 512), w') ∧
      w'.freeblock + used off = w.freeblock + used (off + 1) ∧ Ready w' i off fi P nb c) ∨
    FSSIZE + used off < w.freeblock + used (off + 1) ∧ ((locate w (off / 512)).bind fun r => rsect r.2.img r.1) = none

theorem found_next {w' : Work} {Q : Nat → Nat → Nat} (ht : Tight P nb c) (hn : nb i = off / 512)
    (hlt : nb i < MAXFILE) (hloc : locate w (nb i) = some (x, w')) (hfb : w'.freeblock = x + 1)
    (hl : w'.img.len = FSSIZE * BSIZE) (hx : x ≤ FSSIZE) (hu : x + 1 + used off = w.freeblock + used (off + 1))
    (hQ : ∀ m, m ≠ i → Q m = P m) (hI : Q i IND ≠ 0 → NDIRECT ≤ nb i)
    (hg : x < FSSIZE → Good (view w' i off) fi (x + 1) (setP Q i (nb i) x) (update nb i (nb i + 1)) c) :
    Found w i off fi c := by
  rw [Found, ← hn, hloc]
  rcases lt_or_ge x FSSIZE with hlt' | hge
  · refine .inl ⟨setP Q i (nb i) x, update nb i (nb i + 1), w', by rw [setP_self], by rw [hfb, hu], ?_⟩
    refine ⟨hfb ▸ hg hlt', hl, by omega, by rw [update_self, hn], fun m hm => ?_, fun m hm => ?_⟩
    · rw [update_of_ne hm]; exact ht.blocks m
    · rw [setP_of_ne (.inr (by unfold IND; omega))] at hm
      by_cases he : m = i
      · subst he; rw [update_self]; exact Nat.lt_succ_of_le (hI hm)
      · rw [update_of_ne he]; rw [hQ m he] at hm; exact ht.ind m hm
  · refine .inr ⟨by omega, ?_⟩
    show rsect w'.img x = none
    rw [le_antisymm hx hge, rsect_FSSIZE hl]

theorem used_succ_of_lt (h0 : off % 512 = 0) (h : off ≠ 6144) : used (off + 1) = used off + 1 := by
  rw [used_eq, used_eq]
  split <;> split <;> omega

/-- A block is there, or the next free one becomes the file's, after one for the pointers where the file has
reached the end of the direct blocks. -/
theorem locate_spec (hg : Good (view w i off) fi w.freeblock P nb c) (ht : Tight P nb c)
    (hl : w.img.len = FSSIZE * BSIZE) (hle : w.freeblock ≤ FSSIZE) (hi : 1 ≤ i) (hfi : i < fi)
    (hc : (c i).length = off) (hlt : off / 512 < MAXFILE) :
    Found w i off fi c := by
  have hND : NDIRECT = 12 := rfl
  have hb := ht.blocks i
  have hf := hg.fits i
  rcases Nat.eq_zero_or_pos (off % 512) with h0 | h0
  · have hn : nb i = off / 512 := by omega
    rw [← hn] at hlt
    rcases lt_trichotomy (nb i) NDIRECT with hd | hd | hd
    · obtain ⟨w', hloc, hfb, himg, hgood⟩ := locate_direct hg hi hfi hle hd
      have hu := used_succ_of_lt h0 (by omega)
      exact found_next ht hn hlt hloc hfb (himg ▸ hl) hle (by omega) (fun _ _ => rfl) (hg.alloc.ind i).2 hgood
    · -- the block of pointers is taken first
      have hI : P i IND = 0 := not_not.1 fun h => by
        have := ht.ind i h; omega
      have hu : used (off + 1) = used off + 2 := by
        rw [used_eq, used_eq, if_pos (by omega), if_neg (by omega)]; omega
      obtain ⟨hfb1, himg1, hib, hgood1⟩ := takeInd_next hg hi hfi hd hI
      have hloc1 := locate_indirect (w := w) (le_of_eq hd.symm)
      rcases lt_or_ge w.freeblock FSSIZE with hlt1 | hge1
      · have hg1 := hgood1 hlt1
        rw [← hfb1] at hg1
        obtain ⟨w', hent, hfb, hlen, hgood⟩ := takeEntry_next hg1 (himg1 ▸ hl) hi hfi (by omega) (le_of_eq hd.symm) hlt
          (by rw [setP_self]; have := hg.alloc.fb_ge; unfold nmeta at this; omega)
        refine found_next ht hn hlt (hloc1.trans hent) hfb (by rw [hlen, himg1, hl]) (by omega) (by omega) ?_
          (fun _ => le_of_eq hd.symm) hgood
        exact fun m hm => funext fun _ => setP_of_ne (.inl hm)
      · refine .inr ⟨by omega, ?_⟩
        have hfull : w.freeblock = FSSIZE := le_antisymm hle hge1
        rw [← hn, hloc1, takeEntry_none (himg1 ▸ hl) (by rw [hib (hle.trans_lt (by decide)), hfull])]
        rfl
    · have hI := (hg.alloc.ind i).1 hd
      have hin : takeInd w = w := by
        rw [takeInd, ← view_addr le_rfl, hg.indirect i hi hfi, if_neg hI]
      obtain ⟨w', hent, hfb, hlen, hgood⟩ := takeEntry_next hg hl hi hfi hle hd.le hlt hI
      have hloc : locate w (nb i) = some (w.freeblock, w') := by rw [locate_indirect hd.le, hin, hent]
      have hu := used_succ_of_lt h0 (by omega)
      exact found_next ht hn hlt hloc hfb (hlen.trans hl) hle (by omega) (fun _ _ => rfl) (hg.alloc.ind i).2 hgood
  · have hn : nb i = off / 512 + 1 := by omega
    have hu : used (off + 1) = used off := by
      rw [used_eq, used_eq]
      split <;> split <;> omega
    refine .inl ⟨P, nb, w, locate_there hg hl hle hi hfi hn, by rw [hu], ?_⟩
    exact ⟨hg, hl, hle, hn, fun m _ => ht.blocks m, ht.ind⟩

/-! ## The loop -/

/-- The bytes `v` hold the files `c` in the inodes below `fi`, and the blocks from `fb` on are free. -/
def Holds (v : Nat → UInt8) (fi fb : Nat) (c : Nat → List UInt8) : Prop :=
  fb ≤ FSSIZE ∧ ∃ P nb, Good v fi fb P nb c ∧ Tight P nb c

/-- A file of `off` bytes can take `k` more. -/
def Fits (fb off k : Nat) : Prop := off + k ≤ MAXFILE * BSIZE ∧ fb + used (off + k) ≤ FSSIZE + used off

theorem used_mono {a b : Nat} (h : a ≤ b) : used a ≤ used b := by
  rw [used_eq, used_eq]
  split <;> split <;> omega

section

variable {p : List UInt8}

theorem Holds.len_le {v : Nat → UInt8} {fb : Nat} (h : Holds v fi fb c) : (c i).length ≤ MAXFILE * BSIZE := by
  obtain ⟨-, P, nb, hg, -⟩ := h
  have h1 := hg.fits i
  have h2 := hg.alloc.le i
  have h3 : MAXFILE * BSIZE = 512 * MAXFILE := rfl
  omega

theorem appendLoop_turn (hp : p ≠ []) (hlt : off / 512 < MAXFILE) (f : Nat) :
    appendLoop (f + 1) w off p = (locate w (off / 512)).bind fun r => (rsect r.2.img r.1).bind fun buf =>
      appendLoop f { r.2 with img := wsect r.2.img r.1 (paste buf (off - off / 512 * 512)
          (min p.length ((off / 512 + 1) * 512 - off)) (ofList p)) }
        (off + min p.length ((off / 512 + 1) * 512 - off)) (p.drop (min p.length ((off / 512 + 1) * 512 - off))) := by
  rw [appendLoop, if_neg hp]
  exact if_pos hlt

theorem Ready.write (hr : Ready w i off fi P nb c) (hi : 1 ≤ i) (hfi : i < fi) (hc : (c i).length = off) (h1 : 0 < k)
    (h2 : k ≤ p.length) (h3 : off % 512 + k ≤ 512) :
    ∃ buf w', rsect w.img (P i (off / 512)) = some buf ∧
      { w with img := wsect w.img (P i (off / 512)) (paste buf (off - off / 512 * 512) k (ofList p)) } = w' ∧
      w'.freeblock = w.freeblock ∧ w'.img.len = FSSIZE * BSIZE ∧
      Holds (view w' i (off + k)) fi w.freeblock (update c i (c i ++ p.take k)) := by
  have hg := hr.good
  have hle := hg.alloc.le i
  have h0 : P i (off / 512) ≠ 0 := (hg.alloc.upto i _ (by have := hr.here; omega)).2 (by rw [hr.here]; omega)
  have hlt : P i (off / 512) < FSSIZE := lt_of_lt_of_le (hg.alloc.range i _ h0).2 hr.fb_le
  have hoff : off - off / 512 * 512 = off % 512 := by omega
  refine ⟨_, _, rsect_eq hr.len hlt, rfl, rfl, ?_, hr.fb_le, P, nb, ?_, ?_⟩
  · rw [wsect_eq hr.len hlt]; exact hr.len
  · rw [wsect_eq hr.len hlt, hoff, paste_slice h3, ← view_size off,
      view_paste (hfi.trans_le hg.fi_le) (hg.block_ge h0)]
    have hw := hg.write hi hfi (by rw [hc, hr.here]; omega) h2 (by rw [hc]; exact h3)
    rw [hc] at hw
    exact hw
  · refine ⟨fun m => ?_, hr.ind⟩
    by_cases he : m = i
    · rw [he, update_self, List.length_append, List.length_take, hr.here, hc]; omega
    · rw [update_of_ne he]; exact hr.blocks m he

/-- The loop appends all of `p`, and gives up exactly when it does not fit. -/
theorem appendLoop_spec (hi : 1 ≤ i) (hfi : i < fi) :
    ∀ (f : Nat) (w : Work) (off : Nat) (c : Nat → List UInt8) (p : List UInt8),
    p.length < f → w.img.len = FSSIZE * BSIZE → (c i).length = off → Holds (view w i off) fi w.freeblock c →
    Exactly (Fits w.freeblock off p.length) (appendLoop f w off p) fun r => r.2 = off + p.length ∧
      r.1.freeblock + used off = w.freeblock + used (off + p.length) ∧ r.1.img.len = FSSIZE * BSIZE ∧
      Holds (view r.1 i (off + p.length)) fi r.1.freeblock (update c i (c i ++ p)) := by
  intro f
  induction f with
  | zero => intro w off c p hf; omega
  | succ f ih =>
    intro w off c p hf hl hc hh
    by_cases hp : p = []
    · subst hp
      rw [appendLoop, if_pos rfl]
      refine .ret ⟨hc ▸ hh.len_le, Nat.add_le_add_right hh.1 _⟩ ⟨rfl, rfl, hl, ?_⟩
      rw [List.append_nil, update_eq_self]
      exact hh
    have hpos : 0 < p.length := List.length_pos_iff.2 hp
    by_cases hlt : off / 512 < MAXFILE
    · obtain ⟨hle, P, nb, hg, ht⟩ := hh
      rw [appendLoop_turn hp hlt]
      generalize hk : min p.length ((off / 512 + 1) * 512 - off) = k
      have hk1 : 0 < k := by omega
      have hk2 : k ≤ p.length := by omega
      have hk3 : off % 512 + k ≤ 512 := by omega
      have hu : used (off + k) = used (off + 1) := by
        rw [used_eq, used_eq]
        split <;> split <;> omega
      have hu' := used_mono (show off + k ≤ off + p.length by omega)
      rcases locate_spec hg ht hl hle hi hfi hc hlt with ⟨P', nb', w', hloc, hfb, hready⟩ | ⟨hbig, hnone⟩
      · obtain ⟨buf, w2, hbuf, hw2, hfb2, hl2, hh2⟩ := hready.write hi hfi hc hk1 hk2 hk3
        have hc2 : (update c i (c i ++ p.take k) i).length = off + k := by
          rw [update_self, List.length_append, List.length_take, min_eq_left hk2, hc]
        have hrest := ih w2 (off + k) _ (p.drop k) (by rw [List.length_drop]; omega) hl2 hc2 (hfb2 ▸ hh2)
        have hlen : off + k + (p.drop k).length = off + p.length := by
          rw [List.length_drop]; omega
        rw [update_self, update_idem, List.append_assoc, List.take_append_drop, Fits, hlen, hfb2] at hrest
        rw [hloc, Option.bind_some, hbuf, Option.bind_some, hw2]
        refine hrest.mono (and_congr_right fun _ => by omega) ?_
        rintro r - ⟨hoff, hfb3, hr⟩
        exact ⟨hoff, by omega, hr⟩
      · refine .inr ⟨fun hfit => ?_, ?_⟩
        · have := hfit.2; omega
        · cases hloc : locate w (off / 512) with
          | none => rfl
          | some r => rw [hloc, Option.bind_some] at hnone; rw [Option.bind_some, hnone]; rfl
    · have hnone : appendLoop (f + 1) w off p = none := by
        rw [appendLoop, if_neg hp]; exact if_neg hlt
      rw [hnone]
      refine .fail fun hfit => ?_
      have h1 := hfit.1
      have h3 : MAXFILE * BSIZE = 512 * MAXFILE := rfl
      omega

end

end Xv6.Mkfs
