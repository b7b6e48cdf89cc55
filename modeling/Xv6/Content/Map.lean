/-
The block map of an inode. Its slots are the pointers and the words of the indirect block; a slot that is not 0 owns
its block, and no block is in two slots. `bmap` gives the block of a slot and allocates it, and the indirect block on
the way, when it is not there; so the slots only get more, and nothing in a block of another slot changes. The log
gets the block, the indirect block and the blocks of the bitmap in which bits have been set.
-/
import Xv6.Content.Inode

namespace Xv6.Content

open Base Fs Function

/-! ## Slots -/

/-- The pointers, the indirect block's among them, and the words of the indirect block. -/
def NSLOTS : Nat := NDIRECT + 1 + NINDIRECT

/-- The block in a slot, 0 if there is none. -/
def val (s : Vol) (p : Nat) : Nat :=
  if p ≤ NDIRECT then s.ip.addrs p
  else if s.ip.addrs NDIRECT = 0 then 0
  else getLE (s.data (s.ip.addrs NDIRECT)) (4 * (p - (NDIRECT + 1))) 4

def slotOf (bn : Nat) : Nat := if bn < NDIRECT then bn else bn + 1

/-- The slots that `hi` blocks of a file take. -/
def nslots (hi : Nat) : Nat := if NDIRECT < hi then hi + 1 else hi

variable {bn : Nat}

theorem slotOf_lt (h : bn < MAXFILE) : slotOf bn < NSLOTS ∧ slotOf bn ≠ NDIRECT := by
  unfold slotOf
  unfold NSLOTS NDIRECT NINDIRECT MAXFILE BSIZE at *
  split <;> omega

variable {hi : Nat}

theorem slotOf_lt_nslots (h : bn < hi) : slotOf bn < nslots hi := by
  unfold slotOf nslots
  split <;> split <;> omega

theorem nslots_le (h : hi ≤ MAXFILE) : nslots hi ≤ NSLOTS := by
  unfold nslots
  unfold NSLOTS NDIRECT NINDIRECT MAXFILE BSIZE at *
  split <;> omega

variable {b : Nat}

theorem slotOf_inj {a : Nat} (h : slotOf a = slotOf b) : a = b := by
  unfold slotOf at h
  split at h <;> split at h <;> omega

/-! ## Counting -/

/-- Blocks whose bit is clear. -/
def free (s : Vol) : Nat := ((Finset.range s.nblocks).filter fun b => s.used b = false).card

/-- Slots that are empty, of those that `hi` blocks take. -/
def need (s : Vol) (hi : Nat) : Nat := ((Finset.range (nslots hi)).filter fun p => val s p = 0).card

/-! ## Trees -/

/-- Every slot owns its block. Block 0 is the boot block, and the number of blocks is a `uint`. -/
structure Tree (s : Vol) : Prop where
  boot : s.used 0 = true
  size : s.nblocks ≤ 2 ^ 32
  inj : ∀ p q, p < NSLOTS → q < NSLOTS → val s p = val s q → val s p ≠ 0 → p = q
  used : ∀ p < NSLOTS, val s p ≠ 0 → s.used (val s p) = true

/-- A block is put in the empty slot `p`; the inode has the size it had. -/
structure Puts (s : Vol) (p b : Nat) (s' : Vol) : Prop where
  nblocks : s'.nblocks = s.nblocks
  bmapstart : s'.bmapstart = s.bmapstart
  type : s'.ip.type = s.ip.type
  size : s'.ip.size = s.ip.size
  dip : s'.dip = s.dip
  empty : val s p = 0
  fresh : b < s.nblocks ∧ s.used b = false
  used : s'.used = update s.used b true
  val : ∀ q < NSLOTS, val s' q = if q = p then b else Content.val s q
  data : ∀ c, s.used c = true → c ≠ Content.val s NDIRECT → s'.data c = s.data c
  lh : ∀ c ∈ s'.lh, c ∈ s.lh ∨ c = b ∨ c = s.BBLOCK b ∨ c = Content.val s NDIRECT ∧ c ≠ 0

variable {s s' : Vol} {p : Nat}

theorem Puts.tree (h : Puts s p b s') (ht : Tree s) : Tree s' := by
  have hold : ∀ q < NSLOTS, Content.val s q ≠ b := fun q hq he => by
    have h0 : Content.val s q ≠ 0 := fun h0 => by
      have hb := h.fresh.2; rw [← he, h0, ht.boot] at hb; cases hb
    have hu := ht.used q hq h0
    rw [he, h.fresh.2] at hu
    cases hu
  refine ⟨?_, h.nblocks ▸ ht.size, fun q r hq hr heq h0 => ?_, fun q hq h0 => ?_⟩
  · rw [h.used]
    by_cases hb : 0 = b
    · rw [hb, update_self]
    · rw [update_of_ne hb]; exact ht.boot
  · rw [h.val q hq, h.val r hr] at heq
    rw [h.val q hq] at h0
    by_cases hqp : q = p
    · by_cases hrp : r = p
      · rw [hqp, hrp]
      · rw [if_pos hqp, if_neg hrp] at heq; exact (hold r hr heq.symm).elim
    · rw [if_neg hqp] at heq h0
      by_cases hrp : r = p
      · rw [if_pos hrp] at heq; exact (hold q hq heq).elim
      · rw [if_neg hrp] at heq; exact ht.inj q r hq hr heq h0
  · rw [h.val q hq] at h0 ⊢
    rw [h.used]
    by_cases hqp : q = p
    · rw [if_pos hqp, update_self]
    · rw [if_neg hqp] at h0 ⊢; rw [update_of_ne (hold q hq)]; exact ht.used q hq h0

theorem Puts.ne_zero (h : Puts s p b s') (ht : Tree s) : b ≠ 0 := fun h0 => by
  have hb := h.fresh.2; rw [h0, ht.boot] at hb; cases hb

theorem Puts.free (h : Puts s p b s') : free s' + 1 = free s := by
  have hmem : b ∈ (Finset.range s.nblocks).filter fun b => s.used b = false :=
    Finset.mem_filter.2 ⟨Finset.mem_range.2 h.fresh.1, h.fresh.2⟩
  have heq : ((Finset.range s'.nblocks).filter fun b => s'.used b = false) =
      ((Finset.range s.nblocks).filter fun b => s.used b = false).erase b := by
    ext c
    rw [Finset.mem_erase, Finset.mem_filter, Finset.mem_filter, h.nblocks, h.used]
    by_cases hc : c = b
    · rw [hc, update_self]; simp
    · rw [update_of_ne hc]; simp [hc]
  rw [Content.free, heq, Finset.card_erase_add_one hmem]
  rfl

theorem Puts.need (h : Puts s p b s') (ht : Tree s) (hp : p < nslots hi) (hhi : hi ≤ MAXFILE) :
    need s' hi + 1 = need s hi := by
  have hmem : p ∈ (Finset.range (nslots hi)).filter fun p => Content.val s p = 0 :=
    Finset.mem_filter.2 ⟨Finset.mem_range.2 hp, h.empty⟩
  have heq : ((Finset.range (nslots hi)).filter fun p => Content.val s' p = 0) =
      ((Finset.range (nslots hi)).filter fun p => Content.val s p = 0).erase p := by
    ext q
    rw [Finset.mem_erase, Finset.mem_filter, Finset.mem_filter, Finset.mem_range]
    by_cases hq : q < nslots hi
    · rw [h.val q (hq.trans_le (nslots_le hhi))]
      by_cases hqp : q = p
      · simp [hqp, h.ne_zero ht]
      · simp [hqp]
    · simp [hq]
  rw [Content.need, heq, Finset.card_erase_add_one hmem]
  rfl

/-- The slots of `s` are kept, and others get blocks that were free. -/
structure Grown (s s' : Vol) : Prop where
  nblocks : s'.nblocks = s.nblocks
  bmapstart : s'.bmapstart = s.bmapstart
  type : s'.ip.type = s.ip.type
  size : s'.ip.size = s.ip.size
  dip : s'.dip = s.dip
  keep : ∀ p < NSLOTS, val s p ≠ 0 → val s' p = val s p
  fresh : ∀ p < NSLOTS, val s p = 0 → val s' p ≠ 0 → s.used (val s' p) = false
  used : ∀ b, s.used b = true → s'.used b = true

/-- And of the blocks in use only the indirect block changes. -/
structure Ext (s s' : Vol) : Prop extends Grown s s' where
  data : ∀ b, s.used b = true → b ≠ val s NDIRECT → s'.data b = s.data b

section

variable {s'' : Vol}

theorem ndirect_lt : NDIRECT < NSLOTS := by decide

theorem Grown.refl (s : Vol) : Grown s s :=
  ⟨rfl, rfl, rfl, rfl, rfl, fun _ _ _ => rfl, fun _ _ h0 h => (h h0).elim, fun _ h => h⟩

theorem Grown.trans (h1 : Grown s s') (h2 : Grown s' s'') : Grown s s'' := by
  refine ⟨h2.nblocks.trans h1.nblocks, h2.bmapstart.trans h1.bmapstart, h2.type.trans h1.type, h2.size.trans h1.size,
    h2.dip.trans h1.dip, fun p hp hv => ?_, fun p hp hv hv' => ?_, fun b hb => h2.used b (h1.used b hb)⟩
  · rw [h2.keep p hp (by rw [h1.keep p hp hv]; exact hv), h1.keep p hp hv]
  · by_cases hv1 : val s' p = 0
    · have hf := h2.fresh p hp hv1 hv'
      by_contra hu
      rw [h1.used _ (Bool.of_not_eq_false hu)] at hf
      cases hf
    · rw [h2.keep p hp hv1]; exact h1.fresh p hp hv hv1

/-- A block that was in use is in a slot only if it was before. -/
theorem Grown.ne_val (h : Grown s s') (hp : p < NSLOTS) (hb : s.used b = true) (hne : val s p ≠ b) : val s' p ≠ b := by
  intro he
  by_cases hv : val s p = 0
  · by_cases h0 : val s' p = 0
    · exact hne (hv.trans (h0.symm.trans he))
    · have hf := h.fresh p hp hv h0; rw [he, hb] at hf; cases hf
  · exact hne ((h.keep p hp hv).symm.trans he)

theorem Ext.trans (h1 : Ext s s') (h2 : Ext s' s'') : Ext s s'' :=
  ⟨h1.toGrown.trans h2.toGrown, fun b hb hne => by
    rw [h2.data b (h1.used b hb) (h1.ne_val ndirect_lt hb hne.symm).symm, h1.data b hb hne]⟩

theorem Puts.ext (h : Puts s p b s') : Ext s s' := by
  refine ⟨⟨h.nblocks, h.bmapstart, h.type, h.size, h.dip, fun q hq hv => ?_, fun q hq hv hv' => ?_, fun c hc => ?_⟩,
    h.data⟩
  · rw [h.val q hq, if_neg]; rintro rfl; exact hv h.empty
  · rw [h.val q hq] at hv' ⊢
    by_cases hqp : q = p
    · rw [if_pos hqp]; exact h.fresh.2
    · rw [if_neg hqp] at hv'; exact (hv' hv).elim
  · rw [h.used]
    by_cases hcb : c = b
    · rw [hcb, update_self]
    · rw [update_of_ne hcb]; exact hc

end

/-! ## The log -/

def bitmaps (s : Vol) : Finset Nat := (Finset.range s.nblocks).image s.BBLOCK

/-- What is in the header `lh` and not in that of `s`: blocks of `D`, `k` blocks of the bitmap, and the indirect block
`i`. -/
def Logs (s : Vol) (D : Finset Nat) (k : Nat) (lh : Finset Nat) (i : Nat) : Prop :=
  (val s NDIRECT ≠ 0 → i = val s NDIRECT) ∧
    ∃ B ⊆ bitmaps s, B.card ≤ k ∧ ∀ c ∈ lh, c ∈ s.lh ∨ c ∈ D ∨ c ∈ B ∨ c = i ∧ c ≠ 0

/-- The header can get full with `d` blocks more, and `k` of the bitmap. -/
def Full (s : Vol) (d k : Nat) : Prop := ∃ D lh i, D.card ≤ d ∧ nlog - 1 ≤ lh.card ∧ Logs s D k lh i

variable {k : Nat}

section

variable {D D' lh : Finset Nat} {d d' k' i : Nat}

theorem Logs.refl (s : Vol) : Logs s ∅ 0 s.lh (val s NDIRECT) :=
  ⟨fun _ => rfl, ∅, Finset.empty_subset _, le_refl 0, fun _ h => .inl h⟩

theorem Logs.mono (h : Logs s D k lh i) (hD : D ⊆ D') (hk : k ≤ k') : Logs s D' k' lh i := by
  obtain ⟨hi, B, hB, hcard, hmem⟩ := h
  exact ⟨hi, B, hB, hcard.trans hk, fun c hc => (hmem c hc).imp_right (.imp_left fun h => hD h)⟩

theorem Logs.insert (h : Logs s D k lh i) (hb : b ∈ D) : Logs s D k (insert b lh) i := by
  obtain ⟨hi, B, hB, hcard, hmem⟩ := h
  refine ⟨hi, B, hB, hcard, fun c hc => ?_⟩
  rcases Finset.mem_insert.1 hc with rfl | hc
  · exact .inr (.inl hb)
  · exact hmem c hc

theorem Logs.trans (h : Logs s D k s'.lh (val s' NDIRECT)) (hg : Grown s s') (h' : Logs s' D' k' lh i) :
    Logs s (D ∪ D') (k + k') lh i := by
  obtain ⟨-, B, hB, hcard, hmem⟩ := h
  obtain ⟨hi', B', hB', hcard', hmem'⟩ := h'
  have hmaps : bitmaps s' = bitmaps s := by
    unfold bitmaps Vol.BBLOCK; rw [hg.nblocks, hg.bmapstart]
  refine ⟨fun h0 => ?_, B ∪ B', Finset.union_subset hB (hmaps ▸ hB'),
    (Finset.card_union_le B B').trans (add_le_add hcard hcard'), fun c hc => ?_⟩
  · have hkeep := hg.keep NDIRECT ndirect_lt h0; rw [hi' (by rwa [hkeep]), hkeep]
  · simp only [Finset.mem_union]
    rcases hmem' c hc with hc | hc | hc | hc
    · rcases hmem c hc with hc | hc | hc | ⟨rfl, h0⟩
      · exact .inl hc
      · exact .inr (.inl (.inl hc))
      · exact .inr (.inr (.inl (.inl hc)))
      · exact .inr (.inr (.inr ⟨(hi' h0).symm, h0⟩))
    · exact .inr (.inl (.inr hc))
    · exact .inr (.inr (.inl (.inr hc)))
    · exact .inr (.inr (.inr hc))

theorem BBLOCK_mem (hb : b < s.nblocks) : {s.BBLOCK b} ⊆ bitmaps s :=
  Finset.singleton_subset_iff.2 (Finset.mem_image_of_mem _ (Finset.mem_range.2 hb))

/-- A new block is in the log with its block of the bitmap, and the indirect block if the slot is there. -/
theorem Puts.logs (h : Puts s p b s') (hp : p < NSLOTS) (ht : Tree s) :
    Logs s (if p = NDIRECT then ∅ else {b}) 1 s'.lh (Content.val s' NDIRECT) := by
  have hkeep : Content.val s NDIRECT ≠ 0 → Content.val s' NDIRECT = Content.val s NDIRECT :=
    h.ext.keep NDIRECT ndirect_lt
  refine ⟨hkeep, {s.BBLOCK b}, BBLOCK_mem h.fresh.1, le_refl 1, fun c hc => ?_⟩
  rcases h.lh c hc with hc | hc | hc | ⟨rfl, h0⟩
  · exact .inl hc
  · subst hc
    by_cases hpn : p = NDIRECT
    · have hv := h.val p hp
      rw [if_pos rfl, hpn] at hv
      exact .inr (.inr (.inr ⟨hv.symm, h.ne_zero ht⟩))
    · rw [if_neg hpn]; exact .inr (.inl (Finset.mem_singleton_self c))
  · exact .inr (.inr (.inl (Finset.mem_singleton.2 hc)))
  · exact .inr (.inr (.inr ⟨(hkeep h0).symm, h0⟩))

theorem Full.mono (h : Full s d k) (hd : d ≤ d') (hk : k ≤ k') : Full s d' k' := by
  obtain ⟨D, lh, i, hD, hlh, hl⟩ := h
  exact ⟨D, lh, i, hD.trans hd, hlh, hl.mono (Finset.Subset.refl D) hk⟩

theorem Full.after (h : Full s' d' k') (hg : Grown s s') (hl : Logs s D k s'.lh (val s' NDIRECT)) (hD : D.card ≤ d) :
    Full s (d + d') (k + k') := by
  obtain ⟨D', lh, i, hD', hlh, hl'⟩ := h
  exact ⟨D ∪ D', lh, i, (Finset.card_union_le D D').trans (add_le_add hD hD'), hlh, hl.trans hg hl'⟩

/-- There is room in the log for a write to `d` blocks of the file: they, the indirect block, and the blocks of the
bitmap. -/
def LogRoom (s : Vol) (d : Nat) : Prop := s.lh.card + (d + 1 + min (2 * d) (s.nblocks / BPB + 1)) < nlog - 1

theorem card_bitmaps_le (s : Vol) : (bitmaps s).card ≤ s.nblocks / BPB + 1 := by
  have hsub : bitmaps s ⊆ (Finset.range (s.nblocks / BPB + 1)).image (· + s.bmapstart) := by
    intro c hc
    obtain ⟨b, hb, rfl⟩ := Finset.mem_image.1 hc
    refine Finset.mem_image.2 ⟨b / BPB, Finset.mem_range.2 (Nat.lt_succ_of_le ?_), rfl⟩
    exact Nat.div_le_div_right (Finset.mem_range.1 hb).le
  exact (Finset.card_le_card hsub).trans (Finset.card_image_le.trans (Finset.card_range _).le)

theorem LogRoom.not_full (h : LogRoom s d) : ¬ Full s d (2 * d) := by
  rintro ⟨D, lh, i, hD, hlh, -, B, hB, hcard, hmem⟩
  have hsub : lh ⊆ s.lh ∪ (insert i D ∪ B) := fun c hc => by
    simp only [Finset.mem_union, Finset.mem_insert]
    rcases hmem c hc with hc | hc | hc | hc
    · exact .inl hc
    · exact .inr (.inl (.inr hc))
    · exact .inr (.inr hc)
    · exact .inr (.inl (.inl hc.1))
  have hle := (Finset.card_le_card hsub).trans (Finset.card_union_le _ _)
  have hle' := Finset.card_union_le (insert i D) B
  have hins := Finset.card_insert_le i D
  have hB' := (Finset.card_le_card hB).trans (card_bitmaps_le s)
  unfold LogRoom at h
  omega

end

/-! ## `bmap` -/

theorem logWrite_ends :
    Ends (fun e => e = .tooBig ∧ nlog - 1 ≤ s.lh.card) (fun _ s' => s' = { s with lh := insert b s.lh })
    (logWrite b s) := by
  rw [logWrite, get_bind]
  refine .ite (fun h => .fail ⟨rfl, ?_⟩) fun _ => rfl
  rcases h with h | h
  · exact (Nat.sub_le nlog 1).trans h
  · exact h

theorem balloc_ends : Ends (fun e => e = .balloc ∧ free s = 0 ∨ e = .tooBig ∧ Full s 0 1)
    (fun b s' => (b < s.nblocks ∧ s.used b = false) ∧
    s' = { s with used := update s.used b true, data := (update s.data b fun _ => 0),
                  lh := insert b (insert (s.BBLOCK b) s.lh) }) (balloc s) := by
  rw [balloc, get_bind]
  cases h : (List.range s.nblocks).find? fun b => !s.used b with
  | none =>
    rw [List.find?_eq_none] at h
    refine .fail (.inl ⟨rfl, Finset.card_eq_zero.2 (Finset.filter_eq_empty_iff.2 fun b hb => ?_)⟩)
    have := h b (List.mem_range.2 (Finset.mem_range.1 hb))
    simpa using this
  | some b =>
    have hb : b < s.nblocks := List.mem_range.1 (List.mem_of_find?_eq_some h)
    have hu : s.used b = false := by simpa using List.find?_some h
    have hmap : Logs s ∅ 1 (insert (s.BBLOCK b) s.lh) (val s NDIRECT) :=
      ⟨fun _ => rfl, {s.BBLOCK b}, BBLOCK_mem hb, le_refl 1, fun c hc => by
        rcases Finset.mem_insert.1 hc with rfl | hc
        · exact .inr (.inr (.inl (Finset.mem_singleton_self _)))
        · exact .inl hc⟩
    dsimp only
    rw [modify_bind]
    refine .bind (logWrite_ends.err fun e he => .inr ⟨he.1, ∅, s.lh, _, le_refl 0, he.2,
      (Logs.refl s).mono (Finset.Subset.refl _) zero_le⟩) ?_
    rintro - s1 rfl
    rw [modify_bind]
    refine .bind (logWrite_ends.err fun e he => .inr ⟨he.1, ∅, _, _, le_refl 0, he.2, hmap⟩) ?_
    rintro - s2 rfl
    exact .ret ⟨⟨hb, hu⟩, rfl⟩

theorem val_of_gt (hp : NDIRECT < p) : val s p =
    if s.ip.addrs NDIRECT = 0 then 0 else getLE (s.data (s.ip.addrs NDIRECT)) (4 * (p - (NDIRECT + 1))) 4 :=
      if_neg (not_le.2 hp)

theorem val_of_le (hp : p ≤ NDIRECT) : val s p = s.ip.addrs p := if_pos hp

theorem pointer_ends (ht : Tree s) (hk : k ≤ NDIRECT) :
    Ends (fun e => e = .balloc ∧ val s k = 0 ∧ free s = 0 ∨ e = .tooBig ∧ Full s 0 1)
      (fun r s' => (r = val s k ∧ r ≠ 0 ∧ s' = s) ∨ Puts s k r s') (pointer k s) := by
  rw [pointer, get_bind, ← val_of_le hk]
  refine .ite (fun h0 => ?_) fun h0 => .ret (.inl ⟨rfl, h0, rfl⟩)
  refine (balloc_ends.err fun _ h => h.imp_left fun h => ⟨h.1, h0, h.2⟩).bind ?_
  rintro b s1 ⟨hb, hs1⟩
  subst hs1
  refine .ret (.inr ⟨rfl, rfl, rfl, rfl, rfl, h0, hb, rfl, fun q hq => ?_, fun c hc _ => ?_, fun c hc => ?_⟩)
  · -- only slot `k` changes: a new indirect block is empty, and an old one is not the block
    by_cases hqk : q ≤ NDIRECT
    · rw [val_of_le hqk, val_of_le hqk]
      show update s.ip.addrs k b q = _
      by_cases he : q = k
      · rw [he, update_self, if_pos rfl]
      · rw [update_of_ne he, if_neg he]
    · have hgt := not_le.1 hqk
      rw [if_neg (by omega), val_of_gt hgt, val_of_gt hgt]
      show (if update s.ip.addrs k b NDIRECT = 0 then 0 else
        getLE (update s.data b (fun _ => 0) (update s.ip.addrs k b NDIRECT)) (4 * (q - (NDIRECT + 1))) 4) = _
      by_cases he : NDIRECT = k
      · rw [← he, update_self, update_self]
        rw [← he, val_of_le le_rfl] at h0
        rw [if_pos h0, getLE_zero fun _ _ _ => rfl, ite_self]
      · rw [update_of_ne he]
        by_cases ha : s.ip.addrs NDIRECT = 0
        · rw [if_pos ha, if_pos ha]
        · have hu := ht.used NDIRECT ndirect_lt (by rwa [val_of_le le_rfl])
          rw [val_of_le le_rfl] at hu
          rw [if_neg ha, if_neg ha, update_of_ne fun hab => ?_]
          rw [hab, hb.2] at hu
          cases hu
  · refine update_of_ne (fun hcb => ?_) ..
    rw [hcb, hb.2] at hc
    cases hc
  · rcases Finset.mem_insert.1 hc with hc | hc
    · exact .inr (.inl hc)
    · exact (Finset.mem_insert.1 hc).elim (fun hc => .inr (.inr (.inl hc))) .inl

theorem indirect_ends {j : Nat} (ht : Tree s) (ha : val s NDIRECT ≠ 0) :
    Ends (fun e => e = .balloc ∧ val s (NDIRECT + 1 + j) = 0 ∧ free s = 0 ∨ e = .tooBig ∧ Full s 1 1)
      (fun r s' => (r = val s (NDIRECT + 1 + j) ∧ r ≠ 0 ∧ s' = s) ∨ Puts s (NDIRECT + 1 + j) r s')
      (indirect (val s NDIRECT) j s) := by
  have haddr : val s NDIRECT = s.ip.addrs NDIRECT := val_of_le le_rfl
  have hword : val s (NDIRECT + 1 + j) = getLE (s.data (val s NDIRECT)) (4 * j) 4 := by
    rw [val_of_gt (by omega), ← haddr, if_neg ha, Nat.add_sub_cancel_left]
  have hused := ht.used NDIRECT ndirect_lt ha
  rw [indirect, get_bind, ← hword]
  refine .ite (fun h0 => ?_) fun h0 => .ret (.inl ⟨rfl, h0, rfl⟩)
  refine (balloc_ends.err fun _ h => h.imp (fun h => ⟨h.1, h0, h.2⟩)
    fun h => ⟨h.1, h.2.mono zero_le le_rfl⟩).bind ?_
  rintro b s1 ⟨hb, hs1⟩
  have hne : val s NDIRECT ≠ b := fun he => by
    rw [he, hb.2] at hused; cases hused
  have hold : update s.data b (fun _ => 0) (val s NDIRECT) = s.data (val s NDIRECT) := update_of_ne hne ..
  have hlh : ∀ c ∈ s1.lh, c ∈ s.lh ∨ c = b ∨ c = s.BBLOCK b := by
    rw [hs1]
    intro c hc
    rcases Finset.mem_insert.1 hc with hc | hc
    · exact .inr (.inl hc)
    · exact (Finset.mem_insert.1 hc).elim (fun hc => .inr (.inr hc)) .inl
  -- the header is full with the new block and its block of the bitmap in it
  have hfull : nlog - 1 ≤ s1.lh.card → Full s 1 1 := fun h =>
    ⟨{b}, s1.lh, val s NDIRECT, le_refl 1, h, fun _ => rfl, {s.BBLOCK b}, BBLOCK_mem hb.1, le_refl 1, fun c hc => by
      simp only [Finset.mem_singleton]; exact (hlh c hc).imp_right (.imp_right .inl)⟩
  rw [modify_bind]
  refine .bind (logWrite_ends.err fun _ h => .inr ⟨h.1, hfull h.2⟩) ?_
  rintro - s2 rfl
  subst hs1
  refine .ret (.inr ⟨rfl, rfl, rfl, rfl, rfl, h0, hb, rfl, fun q hq => ?_, fun c hc hcn => ?_, fun c hc => ?_⟩)
  · by_cases hqk : q ≤ NDIRECT
    · rw [if_neg (by omega), val_of_le hqk, val_of_le hqk]
    · have hgt := not_le.1 hqk
      rw [val_of_gt hgt, val_of_gt hgt]
      show (if s.ip.addrs NDIRECT = 0 then 0 else getLE (update (update s.data b fun _ => 0) (val s NDIRECT)
        (putLE (update s.data b (fun _ => 0) (val s NDIRECT)) (4 * j) 4 b) (s.ip.addrs NDIRECT))
        (4 * (q - (NDIRECT + 1))) 4) = _
      rw [← haddr, if_neg ha, if_neg ha, update_self, hold]
      by_cases he : q = NDIRECT + 1 + j
      · rw [if_pos he, he, Nat.add_sub_cancel_left, getLE_putLE]
        exact Nat.mod_eq_of_lt (hb.1.trans_le ht.size)
      · rw [if_neg he, getLE_putLE_out (by omega)]
  · show update (update s.data b fun _ => 0) (val s NDIRECT) _ c = s.data c
    rw [update_of_ne hcn, update_of_ne fun hcb => ?_]
    rw [hcb, hb.2] at hc
    cases hc
  · rcases Finset.mem_insert.1 hc with rfl | hc
    · exact .inr (.inr (.inr ⟨rfl, ha⟩))
    · exact (hlh c hc).imp_right (.imp_right .inl)

theorem bmap_old (hbn : bn < MAXFILE) (h : val s (slotOf bn) ≠ 0) : bmap bn s = .ok (val s (slotOf bn), s) := by
  unfold slotOf at *
  unfold bmap
  by_cases hd : bn < NDIRECT
  · rw [if_pos hd] at h
    rw [if_pos hd, if_pos hd, pointer, get_bind, ← val_of_le hd.le, if_neg h]
    rfl
  · rw [if_neg hd] at h
    have hgt : NDIRECT < bn + 1 := by omega
    have hj : bn - NDIRECT < NINDIRECT := by
      unfold MAXFILE at hbn; unfold NDIRECT NINDIRECT BSIZE at *; omega
    rw [if_neg hd, if_neg hd, if_pos hj]
    rw [val_of_gt hgt] at h ⊢
    by_cases ha : s.ip.addrs NDIRECT = 0
    · rw [if_pos ha] at h; exact (h rfl).elim
    · rw [if_neg ha] at h ⊢
      have hp : pointer NDIRECT s = .ok (s.ip.addrs NDIRECT, s) := by
        rw [pointer, get_bind, if_neg ha]; rfl
      rw [show bn + 1 - (NDIRECT + 1) = bn - NDIRECT by omega] at h ⊢
      rw [bind_ok hp, indirect, get_bind, if_neg h]
      rfl

/-- What ends a write to `d` blocks of a file that gets `hi` blocks. -/
def Short (s : Vol) (hi d : Nat) (e : Panic) : Prop := e = .balloc ∧ free s < need s hi ∨ e = .tooBig ∧ Full s d (2 * d)

theorem bmap_grows (ht : Tree s) (hbn : bn < hi) (hhi : hi ≤ MAXFILE) :
    Ends (Short s hi 1) (fun r s' => r = val s' (slotOf bn) ∧ r ≠ 0 ∧ Tree s' ∧ Ext s s' ∧
      (need s hi ≤ free s → need s' hi ≤ free s') ∧ Logs s {r} 2 s'.lh (val s' NDIRECT)) (bmap bn s) := by
  have hslot := slotOf_lt_nslots hbn
  -- an empty slot is among those counted
  have hpos : ∀ {s : Vol} {p : Nat}, p < nslots hi → val s p = 0 ∧ free s = 0 → free s < need s hi :=
    fun {s p} hp ⟨hv, h0⟩ => by
    have hcard : 0 < need s hi := Finset.card_pos.2 ⟨p, Finset.mem_filter.2 ⟨Finset.mem_range.2 hp, hv⟩⟩
    omega
  have hput : ∀ {s s' : Vol} {p b : Nat}, Tree s → p < nslots hi → Puts s p b s' →
      (need s hi ≤ free s ↔ need s' hi ≤ free s') :=
    fun {s s' p b} ht hp h => by
      have h1 := h.need ht hp hhi; have h2 := h.free; omega
  unfold bmap
  refine .ite (fun hd => ?_) fun hd => .ite (fun _ => ?_) fun hj => ?_
  · have hs : slotOf bn = bn := if_pos hd
    rw [hs] at hslot ⊢
    refine (pointer_ends ht hd.le).mono (fun _ he => he.imp (fun he => ⟨he.1, hpos hslot he.2⟩)
      fun he => ⟨he.1, he.2.mono (by decide) (by decide)⟩) fun r s' h => ?_
    rcases h with ⟨rfl, h0, rfl⟩ | h
    · exact ⟨rfl, h0, ht, ⟨.refl _, fun _ _ _ => rfl⟩, fun h => h,
        (Logs.refl s').mono (Finset.empty_subset _) (by decide)⟩
    · have hbs := hslot.trans_le (nslots_le hhi)
      have hv := h.val bn hbs
      rw [if_pos rfl] at hv
      have hlog := h.logs hbs ht
      rw [if_neg hd.ne] at hlog
      exact ⟨hv.symm, h.ne_zero ht, h.tree ht, h.ext, (hput ht hslot h).1, hlog.mono (Finset.Subset.refl _) (by decide)⟩
  · have hs : slotOf bn = NDIRECT + 1 + (bn - NDIRECT) := by
      rw [slotOf, if_neg hd]; omega
    have hind : NDIRECT < nslots hi := by
      unfold nslots
      split <;> omega
    rw [hs] at hslot ⊢
    generalize bn - NDIRECT = j at *
    -- the indirect block, and then the word in it
    have hstep : ∀ s1 : Vol, Tree s1 → Ext s s1 → (need s hi ≤ free s ↔ need s1 hi ≤ free s1) → val s1 NDIRECT ≠ 0 →
        Logs s ∅ 1 s1.lh (val s1 NDIRECT) → Ends (Short s hi 1) (fun r s' => r = val s' (NDIRECT + 1 + j) ∧ r ≠ 0 ∧
          Tree s' ∧ Ext s s' ∧ (need s hi ≤ free s → need s' hi ≤ free s') ∧ Logs s {r} 2 s'.lh (val s' NDIRECT))
          (indirect (val s1 NDIRECT) j s1) := by
      intro s1 ht1 hx1 hf1 ha1 hl1
      refine (indirect_ends ht1 ha1).mono (fun _ he => he.imp (fun he => ?_) fun he => ?_) fun r s' h => ?_
      · have := hpos hslot he.2; exact ⟨he.1, by omega⟩
      · exact ⟨he.1, (he.2.after hx1.toGrown hl1 (le_refl 0)).mono (by decide) (by decide)⟩
      rcases h with ⟨rfl, h0, rfl⟩ | h
      · exact ⟨rfl, h0, ht1, hx1, hf1.1, hl1.mono (Finset.empty_subset _) (by decide)⟩
      · have hbs := hslot.trans_le (nslots_le hhi)
        have hv := h.val _ hbs
        rw [if_pos rfl] at hv
        have hlog := h.logs hbs ht1
        rw [if_neg (by omega)] at hlog
        have hlog2 := hl1.trans hx1.toGrown hlog
        rw [Finset.empty_union] at hlog2
        exact ⟨hv.symm, h.ne_zero ht1, h.tree ht1, hx1.trans h.ext, fun hf => (hput ht1 hslot h).1 (hf1.1 hf), hlog2⟩
    refine ((pointer_ends ht le_rfl).err fun _ he => he.imp (fun he => ⟨he.1, hpos hind he.2⟩)
      fun he => ⟨he.1, he.2.mono (by decide) (by decide)⟩).bind fun a s1 h => ?_
    rcases h with ⟨rfl, h0, rfl⟩ | h
    · exact hstep s1 ht ⟨.refl _, fun _ _ _ => rfl⟩ Iff.rfl h0 ((Logs.refl s1).mono (Finset.Subset.refl _) (by decide))
    · have hv := h.val NDIRECT ndirect_lt
      rw [if_pos rfl] at hv
      rw [← hv]
      exact hstep s1 (h.tree ht) h.ext (hput ht hind h) (by rw [hv]; exact h.ne_zero ht) (h.logs ndirect_lt ht)
  · exfalso
    unfold MAXFILE at hhi
    unfold NDIRECT NINDIRECT BSIZE at *
    omega

/-- The block of a slot. It can only be missed when there are not blocks enough for `hi` blocks of the file, or the log
gets full. -/
theorem bmap_ends (ht : Tree s) (hbn : bn < hi) (hhi : hi ≤ MAXFILE) :
    Ends (Short s hi 1) (fun r s' => (r = val s' (slotOf bn) ∧ r ≠ 0 ∧ Tree s' ∧ Ext s s' ∧
      (need s hi ≤ free s → need s' hi ≤ free s') ∧ Logs s {r} 2 s'.lh (val s' NDIRECT)) ∧
      (val s (slotOf bn) ≠ 0 → s' = s)) (bmap bn s) := by
  have h := bmap_grows ht hbn hhi
  by_cases hv : val s (slotOf bn) = 0
  · exact h.post fun r s' h => ⟨h, fun hne => (hne hv).elim⟩
  · rw [bmap_old (hbn.trans_le hhi) hv] at h ⊢; exact ⟨h, fun _ => rfl⟩

end Xv6.Content
