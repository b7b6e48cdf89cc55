/-
The contents of a file are an array of bytes. Reading and writing go through the block map a piece at a time, and
what comes out is one `paste` into the array, wherever the pieces lie and whichever blocks are new. One `writei` can
be too big for the log; `filewrite` cuts the bytes into transactions that are not, each one a write behind the one
before.
-/
import Xv6.Content.Map

namespace Xv6.Content

open Base Fs Function

def byteAt (s : Vol) (k : Nat) : UInt8 := s.data (val s (slotOf (k / BSIZE))) (k % BSIZE)

def contents (s : Vol) : List UInt8 := toList (byteAt s) 0 s.ip.size

/-- A file or a directory all of whose blocks are there, as it is on disk. -/
structure NoHoles (s : Vol) : Prop extends Tree s where
  type : s.ip.type ≠ .dev
  len : s.ip.size ≤ MAXFILE * BSIZE
  full : ∀ bn < nblocks s.ip.size, val s (slotOf bn) ≠ 0
  disk : s.dip = s.ip

/-! ## One block -/

/-- The bytes from `off` on, `left` of them, are written; of the blocks in use only those of the file change. -/
structure Wrote (s : Vol) (src : Nat → UInt8) (off left : Nat) (s' : Vol) : Prop extends Grown s s' where
  tree : Tree s'
  other : ∀ b, s.used b = true → (∀ p < NSLOTS, val s p ≠ b) → s'.data b = s.data b
  mapped : ∀ k, off ≤ k → k < off + left → val s' (slotOf (k / BSIZE)) ≠ 0
  bytes : ∀ k, k / BSIZE < MAXFILE → (val s (slotOf (k / BSIZE)) ≠ 0 ∨ off ≤ k ∧ k < off + left) →
    byteAt s' k = paste (byteAt s) off left src k
  ip : (∀ k, off ≤ k → k < off + left → val s (slotOf (k / BSIZE)) ≠ 0) → s'.ip = s.ip

variable {s s1 : Vol} {b n : Nat} {src : Nat → UInt8}

section

variable {bn o : Nat}

theorem write_block (ht : Tree s) (hbn : bn < MAXFILE) (hb : val s (slotOf bn) = b) (h0 : b ≠ 0) (hn : o + n ≤ BSIZE)
    (hs1 : s1 = { s with data := update s.data b (paste (s.data b) o n src) }) :
    (∀ p < NSLOTS, val s1 p = val s p) ∧ Tree s1 ∧
      ∀ k, k / BSIZE < MAXFILE → val s (slotOf (k / BSIZE)) ≠ 0 →
        byteAt s1 k = paste (byteAt s) (bn * BSIZE + o) n src k := by
  obtain ⟨hlt, hne⟩ := slotOf_lt hbn
  have hind : s.ip.addrs NDIRECT ≠ b := fun he => by
    rw [← val_of_le le_rfl, ← hb] at he
    exact hne (ht.inj _ _ ndirect_lt hlt he (by rw [he, hb]; exact h0)).symm
  have hval : ∀ p, val s1 p = val s p := fun p => by
    by_cases hp : p ≤ NDIRECT
    · rw [val_of_le hp, val_of_le hp, hs1]
    · rw [val_of_gt (not_le.1 hp), val_of_gt (not_le.1 hp), hs1]
      show (if s.ip.addrs NDIRECT = 0 then 0 else
        getLE (update s.data b (paste (s.data b) o n src) (s.ip.addrs NDIRECT)) _ 4) = _
      rw [update_of_ne hind]
  refine ⟨fun p _ => hval p, ⟨?_, ?_, ?_, ?_⟩, fun k hk hv => ?_⟩
  · rw [hs1]; exact ht.boot
  · rw [hs1]; exact ht.size
  · simp only [hval]; exact ht.inj
  · simp only [hval]; rw [hs1]; exact ht.used
  · have hoff : k / BSIZE * BSIZE + k % BSIZE = k := Nat.div_add_mod' k BSIZE
    have hmod : k % BSIZE < BSIZE := Nat.mod_lt k (by decide)
    rw [byteAt, hval, hs1]
    show update s.data b (paste (s.data b) o n src) _ _ = _
    by_cases hkb : k / BSIZE = bn
    · rw [hkb] at hoff
      rw [hkb, hb, update_self]
      by_cases hin : o ≤ k % BSIZE ∧ k % BSIZE < o + n
      · rw [paste_in hin.1 hin.2, paste_in (by omega) (by omega), show k - (bn * BSIZE + o) = k % BSIZE - o by omega]
      · rw [paste_out (by omega), paste_out (by omega), byteAt, hkb, hb]
    · have hvne : val s (slotOf (k / BSIZE)) ≠ b := fun he =>
        hkb (slotOf_inj (ht.inj _ _ (slotOf_lt hk).1 hlt (he.trans hb.symm) hv))
      rw [update_of_ne hvne, paste_out, byteAt]
      unfold BSIZE at *
      omega

end

/-! ## The loops -/

variable {hi off left m d d' : Nat} {s' : Vol}

theorem div_lt_maxfile {k : Nat} (h : k < n) (hn : nblocks n ≤ hi) (hhi : hi ≤ MAXFILE) : k / BSIZE < MAXFILE := by
  have := div_lt_nblocks h; omega

theorem byteAt_ext (ht : Tree s) (h : Ext s s') {k : Nat} (hk : k / BSIZE < MAXFILE)
    (hv : val s (slotOf (k / BSIZE)) ≠ 0) : byteAt s' k = byteAt s k := by
  obtain ⟨hlt, hne⟩ := slotOf_lt hk
  rw [byteAt, byteAt, h.keep _ hlt hv, h.data _ (ht.used _ hlt hv)]
  exact fun he => hne (ht.inj _ _ hlt ndirect_lt he hv)

theorem Wrote.setLh (h : Wrote s src off n s') (lh : Finset Nat) :
    Wrote s src off n { s' with lh := lh } :=
  ⟨⟨h.nblocks, h.bmapstart, h.type, h.size, h.dip, h.keep, h.fresh, h.used⟩,
    ⟨h.tree.boot, h.tree.size, h.tree.inj, h.tree.used⟩, h.other, h.mapped, h.bytes, h.ip⟩

theorem NoHoles.setLh (h : NoHoles s) (lh : Finset Nat) : NoHoles { s with lh := lh } :=
  ⟨⟨h.boot, h.size, h.inj, h.used⟩, h.type, h.len, h.full, h.disk⟩

theorem Wrote.refl (ht : Tree s) (src : Nat → UInt8) (off : Nat) : Wrote s src off 0 s :=
  ⟨.refl _, ht, fun _ _ _ => rfl, fun k h1 h2 => by omega, fun k _ _ => (paste_out (by omega)).symm, fun _ => rfl⟩

section

variable {s2 : Vol}

theorem Wrote.trans (h1 : Wrote s src off m s1) (h2 : Wrote s1 (slice src m) (off + m) (left - m) s') (hm : m ≤ left)
    (hmax : nblocks (off + left) ≤ MAXFILE) : Wrote s src off left s' := by
  refine ⟨h1.toGrown.trans h2.toGrown, h2.tree, fun c hc hno => ?_, fun k hlo hk => ?_,
    fun k hk hor => ?_, fun hall => ?_⟩
  · rw [h2.other c (h1.used c hc) fun p hp => h1.ne_val hp hc (hno p hp), h1.other c hc hno]
  · by_cases hk' : k < off + m
    · have hv := h1.mapped k hlo hk'
      rwa [h2.keep _ (slotOf_lt (div_lt_maxfile hk hmax le_rfl)).1 hv]
    · exact h2.mapped k (by omega) (by omega)
  · by_cases hlater : off + m ≤ k ∧ k < off + left
    · rw [h2.bytes k hk (.inr (by omega)), paste_in (by omega) (by omega), paste_in (by omega) (by omega), slice,
        show m + (k - (off + m)) = k - off by omega]
    -- in the chunk, or in a block that was there before it
    have hor1 : val s (slotOf (k / BSIZE)) ≠ 0 ∨ off ≤ k ∧ k < off + m := hor.imp_right fun h => by omega
    have hv : val s1 (slotOf (k / BSIZE)) ≠ 0 := hor1.elim
      (fun hv => by rwa [h1.keep _ (slotOf_lt hk).1 hv]) fun h => h1.mapped k h.1 h.2
    rw [h2.bytes k hk (.inl hv)]
    exact paste_step hm (h1.bytes k hk hor1) (fun _ _ => rfl) (.inr ⟨rfl, fun _ => rfl⟩)
  · refine (h2.ip fun k hlo hk => ?_).trans (h1.ip fun k hlo hk => hall k hlo (by omega))
    have hv := hall k (by omega) (by omega)
    rwa [h1.keep _ (slotOf_lt (div_lt_maxfile (n := off + left) (by omega) hmax le_rfl)).1 hv]

theorem Ext.wrote (src : Nat → UInt8) (hx : Ext s s1) (ht : Tree s) (ht1 : Tree s1) (hbn : off / BSIZE < MAXFILE)
    (hb : b = val s1 (slotOf (off / BSIZE))) (h0 : b ≠ 0) (hsame : val s (slotOf (off / BSIZE)) ≠ 0 → s1 = s)
    (hpos : 0 < m) (hm : off % BSIZE + m ≤ BSIZE)
    (hs2 : s2 = { s1 with data := update s1.data b (paste (s1.data b) (off % BSIZE) m src) }) :
    (∀ p < NSLOTS, val s2 p = val s1 p) ∧ Wrote s src off m s2 := by
  obtain ⟨hval, ht2, hbytes⟩ := write_block ht1 hbn hb.symm h0 hm hs2
  rw [Nat.div_add_mod' off BSIZE] at hbytes
  have hblock : ∀ k, off ≤ k → k < off + m → k / BSIZE = off / BSIZE := fun k h1 h2 => by
    unfold BSIZE at *; omega
  have hslot := (slotOf_lt hbn).1
  refine ⟨hval, hx.toGrown.trans ⟨?_, ?_, ?_, ?_, ?_, fun p hp _ => hval p hp,
    fun p hp h h' => (h' ((hval p hp).trans h)).elim,
    fun c hc => ?_⟩, ht2, fun c hc hno => ?_, fun k h1 h2 => ?_, fun k hk hor => ?_, fun hall => ?_⟩
  iterate 5 rw [hs2]
  · rw [hs2]; exact hc
  · rw [hs2]
    show update s1.data b _ c = _
    rw [update_of_ne fun he => hx.ne_val hslot hc (hno _ hslot) (hb.symm.trans he.symm),
      hx.data c hc (hno _ ndirect_lt).symm]
  · rw [hblock k h1 h2, hval _ hslot, ← hb]; exact h0
  · by_cases hin : off ≤ k ∧ k < off + m
    · rw [hbytes k hk (by rw [hblock k hin.1 hin.2, ← hb]; exact h0), paste_in hin.1 hin.2, paste_in hin.1 hin.2]
    · have hv := hor.resolve_right hin
      rw [hbytes k hk (by rwa [hx.keep _ (slotOf_lt hk).1 hv]), paste_out (by omega), paste_out (by omega),
        byteAt_ext ht hx hk hv]
  · rw [hs2, hsame (hall off le_rfl (by omega))]

end

/-- The blocks that are in the log after a write to `d` blocks of the file. -/
def Listed (s : Vol) (d : Nat) (s' : Vol) :
    Prop := ∃ D : Finset Nat, D.card ≤ d ∧ Logs s D (2 * d) s'.lh (val s' NDIRECT)

theorem Listed.trans (h : Listed s d s1) (hg : Grown s s1) (h' : Listed s1 d' s') : Listed s (d + d') s' := by
  obtain ⟨D, hD, hl⟩ := h
  obtain ⟨D', hD', hl'⟩ := h'
  refine ⟨D ∪ D', (Finset.card_union_le D D').trans (add_le_add hD hD'), ?_⟩
  rw [mul_add]
  exact hl.trans hg hl'

theorem Listed.full (h : Listed s d s1) (hn : nlog - 1 ≤ s1.lh.card) : Full s d (2 * d) := by
  obtain ⟨D, hD, hl⟩ := h; exact ⟨D, s1.lh, val s1 NDIRECT, hD, hn, hl⟩

theorem Short.after {e : Panic} (h : Short s1 hi d' e) (hg : Grown s s1) (hl : Listed s d s1)
    (hf : need s hi ≤ free s → need s1 hi ≤ free s1) : Short s hi (d + d') e := by
  obtain ⟨D, hD, hl⟩ := hl
  rcases h with ⟨he, h⟩ | ⟨he, h⟩
  · exact .inl ⟨he, not_le.1 fun hle => Nat.not_le_of_lt h (hf hle)⟩
  · refine .inr ⟨he, ?_⟩
    rw [mul_add]
    exact h.after hg hl hD

theorem blocks_rest (hpos : 0 < left - chunk off left) (h : nblocks (off + left) ≤ off / BSIZE + (d + 1)) :
    nblocks (off + left) ≤ (off + chunk off left) / BSIZE + d := by
  unfold chunk at *
  unfold BSIZE at *
  omega

theorem writeLoop_ends (hhi : hi ≤ MAXFILE) :
    ∀ (n : Nat) (src : Nat → UInt8) (off left d : Nat) (s : Vol), Tree s → left ≤ n →
    nblocks (off + left) ≤ hi → (0 < left → nblocks (off + left) ≤ off / BSIZE + d) →
    Ends (Short s hi d) (fun r s' => r = off + left ∧ Wrote s src off left s' ∧
      (need s hi ≤ free s → need s' hi ≤ free s') ∧ Listed s d s') (writeLoop n src off left s) := by
  intro n
  induction n with
  | zero =>
    intro src off left d s ht hl _ _
    obtain rfl := Nat.le_zero.1 hl
    exact .ite (fun _ => .ret ⟨rfl, .refl ht src off, fun h => h, ∅, zero_le,
      (Logs.refl s).mono (Finset.Subset.refl _) zero_le⟩) fun h => (h rfl).elim
  | succ n ih =>
    intro src off left d s ht hl hnb hd
    rw [writeLoop]
    refine .ite (fun h0 => ?_) fun h0 => ?_
    · subst h0
      exact .ret ⟨rfl, .refl ht src off, fun h => h, ∅, zero_le, (Logs.refl s).mono (Finset.Subset.refl _) zero_le⟩
    have hc := chunk_le off left
    have hpos : 0 < chunk off left := chunk_pos (by omega)
    have hbn : off / BSIZE < hi := (div_lt_nblocks (by omega)).trans_le hnb
    obtain ⟨d, rfl⟩ : ∃ d', d = d' + 1 := Nat.exists_eq_succ_of_ne_zero fun h => by
      have hlt : off / BSIZE < nblocks (off + left) := div_lt_nblocks (by omega)
      have hle := hd (by omega)
      omega
    rw [add_comm]
    refine ((bmap_ends ht hbn hhi).err fun _ h => h.imp_right fun h => ⟨h.1, h.2.mono (by omega) (by omega)⟩).bind ?_
    rintro b s1 ⟨⟨hb, hb0, ht1, hx, hf1, hl1⟩, hsame⟩
    have hchunk : off % BSIZE + chunk off left ≤ BSIZE := by
      unfold chunk BSIZE; omega
    obtain ⟨hval, hw1⟩ := hx.wrote src ht ht1 (hbn.trans_le hhi) hb hb0 hsame hpos hchunk rfl
    rw [modify_bind]
    refine .bind (logWrite_ends.err fun e he => .inr ⟨he.1, {b}, s1.lh, _, by rw [Finset.card_singleton]; omega, he.2,
      hl1.mono (Finset.Subset.refl _) (by omega)⟩) ?_
    rintro - s2 hs2
    have hw2 : Wrote s src off (chunk off left) s2 := hs2 ▸ hw1.setLh _
    have hval2 : ∀ p < NSLOTS, val s2 p = val s1 p := by
      rw [hs2]; exact hval
    have hl2 : Listed s 1 s2 := by
      refine ⟨{b}, le_refl 1, ?_⟩
      rw [hval2 NDIRECT ndirect_lt, hs2]
      exact hl1.insert (Finset.mem_singleton_self b)
    have hneed : need s hi ≤ free s → need s2 hi ≤ free s2 := fun hf => by
      have hfree : free s2 = free s1 := by rw [hs2]; rfl
      rw [hfree]
      refine (le_of_eq (congrArg Finset.card (Finset.filter_congr fun p hp => ?_))).trans (hf1 hf)
      rw [hval2 p ((Finset.mem_range.1 hp).trans_le (nslots_le hhi))]
    have hrest : off + chunk off left + (left - chunk off left) = off + left := by omega
    refine (ih _ _ _ d s2 hw2.tree (by omega) (by rwa [hrest]) fun hpos => ?_).mono
      (fun _ h => h.after hw2.toGrown hl2 hneed) fun r s' ⟨hr, hw, hf', hl'⟩ =>
      ⟨by omega, hw2.trans hw hc (hnb.trans hhi), fun hf => hf' (hneed hf), hl2.trans hw2.toGrown hl'⟩
    rw [hrest]
    exact blocks_rest hpos (hd (by omega))

theorem readLoop_eq (h : NoHoles s) : ∀ n off left, left ≤ n → off + left ≤ s.ip.size →
    readLoop n off left s = .ok (toList (byteAt s) off left, s) := by
  intro n
  induction n with
  | zero => intro off left hl _; obtain rfl := Nat.le_zero.1 hl; rfl
  | succ n ih =>
    intro off left hl hle
    by_cases h0 : left = 0
    · rw [readLoop, if_pos h0, h0]; rfl
    have hc := chunk_le off left
    have hpos : 0 < chunk off left := chunk_pos (by omega)
    have hbn : off / BSIZE < nblocks s.ip.size := div_lt_nblocks (by omega)
    have hmax : off / BSIZE < MAXFILE := by
      have := h.len; unfold MAXFILE BSIZE at *; omega
    rw [readLoop, if_neg h0, bind_ok (bmap_old hmax (h.full _ hbn)), get_bind, bind_ok (ih _ _ (by omega) (by omega))]
    show Except.ok (toList (s.data _) _ _ ++ _, s) = _
    rw [toList_chunk left fun k hk => by rw [byteAt, hk]]

/-! ## `readi` and `writei` -/

variable {len : Nat}

theorem take_drop_toList {b : Nat → UInt8} :
    ((toList b 0 len).drop off).take n = toList b off (min n (len - off)) := by
  refine List.ext_getElem ?_ fun j h1 h2 => ?_
  · rw [List.length_take, List.length_drop, length_toList, length_toList]
  · rw [List.getElem_take, List.getElem_drop, getElem_toList, getElem_toList, zero_add]

theorem readi_eq (h : NoHoles s) (ho : off < 2 ^ 32) (hn : n < 2 ^ 32) :
    readi off n s = .ok (if s.ip.size < off ∨ 2 ^ 32 ≤ off + n then none
      else some (((contents s).drop off).take n), s) := by
  have hwrap := add32_lt_iff ho hn
  rw [readi, get_bind, if_neg h.type]
  by_cases hbad : s.ip.size < off ∨ 2 ^ 32 ≤ off + n
  · rw [if_pos hbad, if_pos (by rwa [hwrap])]; rfl
  · rw [if_neg hbad, if_neg (by rwa [hwrap]), add32_eq (by omega), contents, take_drop_toList]
    have hmin : (if s.ip.size < off + n then s.ip.size - off else n) = min n (s.ip.size - off) := by
      split <;> omega
    rw [hmin, bind_ok (readLoop_eq h _ _ _ le_rfl (by omega))]
    rfl

theorem writei_refuses (h : NoHoles s) (ho : off < 2 ^ 32) (hn : n < 2 ^ 32)
    (hbad : s.ip.size < off ∨ 2 ^ 32 ≤ off + n ∨ MAXFILE * BSIZE < off + n) : writei src off n s = .ok (none, s) := by
  have hwrap := add32_lt_iff ho hn
  rw [writei, get_bind, if_neg h.type]
  by_cases h1 : s.ip.size < off ∨ 2 ^ 32 ≤ off + n
  · rw [if_pos (by rwa [hwrap])]; rfl
  · rw [if_neg (by rwa [hwrap]), add32_eq (by omega), if_pos (by omega)]; rfl

theorem writeData_toList {b : Nat → UInt8} (h : off ≤ len) :
    writeData (toList b 0 len) off (toList src 0 n) = toList (paste b off n src) 0 (max len (off + n)) := by
  have hlen : (toList b 0 len).length = len := length_toList ..
  refine List.ext_getElem ?_ fun k h1 h2 => ?_
  · rw [length_writeData (by omega), hlen, length_toList, length_toList]
  · simp only [writeData, List.getElem_append, List.length_append, List.length_take, hlen, min_eq_left h, length_toList,
      getElem_toList, List.getElem_take, List.getElem_drop, zero_add]
    by_cases hlt : k < off
    · rw [dif_pos (by omega), dif_pos hlt, paste_out (.inl hlt)]
    · by_cases hin : k < off + n
      · rw [dif_pos hin, dif_neg hlt, paste_in (by omega) hin]
      · rw [dif_neg hin, paste_out (by omega)]
        congr 1
        omega

/-- What a write leaves, byte by byte, is the array with the bytes put in. -/
theorem Wrote.contents (hw : Wrote s src off n s') (h : NoHoles s) (hle : off ≤ s.ip.size)
    (hmax : off + n ≤ MAXFILE * BSIZE) :
    toList (byteAt s') 0 (max s.ip.size (off + n)) = writeData (contents s) off (toList src 0 n) := by
  rw [Content.contents, writeData_toList hle]
  refine toList_congr fun k hkm => ?_
  rw [zero_add]
  have hlen' := h.len
  have hk : k / BSIZE < MAXFILE := by
    unfold MAXFILE BSIZE at *; omega
  refine hw.bytes k hk ?_
  by_cases hks : k < s.ip.size
  · exact .inl (h.full _ (div_lt_nblocks hks))
  · exact .inr (by omega)

theorem byteAt_of_contents (hc : contents s' = writeData (contents s) off (toList src 0 n)) (hle : off ≤ s.ip.size)
    (hs : s'.ip.size = max s.ip.size (off + n)) {k : Nat} (hk : k < s'.ip.size) :
    byteAt s' k = paste (byteAt s) off n src k := by
  rw [contents, contents, writeData_toList hle, ← hs] at hc
  have hget := congrArg (·[k]?) hc
  simp only [toList, List.getElem?_map, List.getElem?_range hk, Option.map_some, Option.some.injEq, zero_add] at hget
  exact hget

theorem iupdate_ends : Ends (fun e => e = .tooBig ∧ nlog - 1 ≤ s.lh.card)
    (fun _ s' => s' = { s with dip := s.ip, lh := insert s.iblock s.lh }) (iupdate s) := by
  rw [iupdate, get_bind, modify_bind]
  exact logWrite_ends

theorem writei_writes (src : Nat → UInt8) (h : NoHoles s) (hle : off ≤ s.ip.size) (hmax : off + n ≤ MAXFILE * BSIZE)
    (hhi : hi ≤ MAXFILE) (hnb : nblocks (off + n) ≤ hi) (hd : 0 < n → nblocks (off + n) ≤ off / BSIZE + d) :
    Ends (Short s hi d) (fun r s' => r = some n ∧ NoHoles s' ∧
      contents s' = writeData (contents s) off (toList src 0 n) ∧
      s'.ip.size = max s.ip.size (off + n) ∧ s'.ip.type = s.ip.type ∧ (need s hi ≤ free s → need s' hi ≤ free s') ∧
      ∀ b, s.used b = true → (∀ p < NSLOTS, val s p ≠ b) → s'.data b = s.data b) (writei src off n s) := by
  have h32 : off + n < 2 ^ 32 := hmax.trans_lt (by decide)
  rw [writei, get_bind, if_neg h.type, add32_eq h32, if_neg (by omega), if_neg (by omega)]
  refine (writeLoop_ends hhi n src off n d s h.toTree le_rfl hnb hd).bind ?_
  rintro r s1 ⟨hr, hw, hf1, hl1⟩
  subst hr
  have hcont := hw.contents h hle hmax
  -- the blocks of the longer file
  have hfull : ∀ bn < nblocks (max s.ip.size (off + n)), val s1 (slotOf bn) ≠ 0 := by
    intro bn hbn
    by_cases hold : bn < nblocks s.ip.size
    · have hlen := h.len
      have hbm : bn < MAXFILE := by
        unfold nblocks at hold; unfold MAXFILE BSIZE at *; omega
      rw [hw.keep _ (slotOf_lt hbm).1 (h.full bn hold)]
      exact h.full bn hold
    · have hmap := hw.mapped (max off (bn * BSIZE)) (by omega) (by unfold nblocks BSIZE at *; omega)
      rwa [show max off (bn * BSIZE) / BSIZE = bn by unfold nblocks BSIZE at *; omega] at hmap
  rw [get_bind]
  by_cases hgrow : 0 < n ∧ s1.ip.size < off + n
  · rw [if_pos hgrow]
    have hsz := hw.size
    have hm : max s.ip.size (off + n) = off + n := by omega
    rw [hm] at hcont hfull ⊢
    have htype : s1.ip.type ≠ .dev := by
      rw [hw.type]; exact h.type
    -- `iupdate` is the last to write to the log
    rw [modify_bind]
    refine (iupdate_ends.err fun e he => .inr ⟨he.1, hl1.full he.2⟩).bind ?_
    rintro - s2 rfl
    exact .ret ⟨rfl, ⟨⟨hw.tree.boot, hw.tree.size, hw.tree.inj, hw.tree.used⟩, htype, hmax, hfull, rfl⟩, hcont, rfl,
      hw.type, hf1, hw.other⟩
  · rw [if_neg hgrow]
    have hsz := hw.size
    have hm : max s.ip.size (off + n) = s1.ip.size := by omega
    have hip : s1.ip = s.ip := hw.ip fun k h1 h2 => h.full _ (div_lt_nblocks (by omega))
    rw [hm] at hcont hfull ⊢
    refine ⟨rfl, ⟨hw.tree, ?_, ?_, hfull, ?_⟩, hcont, rfl, hw.type, hf1, hw.other⟩
    · rw [hip]; exact h.type
    · rw [hip]; exact h.len
    · rw [hw.dip, h.disk, hip]

/-! ## `filewrite` -/

section

variable {addr : Nat → UInt8}

end

/-! ## The array -/

/-- There are blocks for a file of `m` bytes. -/
def Enough (s : Vol) (m : Nat) : Prop := need s (nblocks m) ≤ free s

theorem nblocks_le_maxfile (h : m ≤ MAXFILE * BSIZE) : nblocks m ≤ MAXFILE := by
  unfold nblocks; unfold MAXFILE BSIZE at *; omega

theorem NoHoles.enough (h : NoHoles s) (hm : m ≤ s.ip.size) : Enough s m := by
  have hfull : ∀ bn < nblocks m, val s (slotOf bn) ≠ 0 := fun bn hbn => h.full bn (hbn.trans_le (nblocks_mono hm))
  have hnone : need s (nblocks m) = 0 := by
    refine Finset.card_eq_zero.2 (Finset.filter_eq_empty_iff.2 fun p hp => ?_)
    have hp := Finset.mem_range.1 hp
    rcases lt_trichotomy p NDIRECT with hlt | rfl | hgt
    · have hslot := hfull p (by unfold nslots at hp; split at hp <;> omega)
      rwa [slotOf, if_pos hlt] at hslot
    · -- there are words in the indirect block
      have hslot := hfull NDIRECT (by unfold nslots at hp; split at hp <;> omega)
      rw [slotOf, if_neg (lt_irrefl _), val_of_gt (Nat.lt_succ_self _)] at hslot
      rw [val_of_le le_rfl]
      exact fun h0 => hslot (if_pos h0)
    · have hslot := hfull (p - 1) (by unfold nslots at hp; split at hp <;> omega)
      rwa [slotOf, if_neg (by omega), Nat.sub_add_cancel (by omega)] at hslot
  rw [Enough, hnone]
  exact zero_le

/-- An empty file on a disk of 1000 blocks, of which the first 60 are in use, at the start of a transaction. -/
def blank (type : IType) : Vol where
  nblocks := 1000
  bmapstart := 58
  used b := b < 60
  data _ _ := 0
  ip := ⟨type, 0, fun _ => 0⟩
  dip := ⟨type, 0, fun _ => 0⟩
  iblock := 32
  lh := ∅

theorem blank_val (type : IType) (p : Nat) : val (blank type) p = 0 := by
  unfold val
  split
  · rfl
  · exact if_pos rfl

theorem blank_noHoles {type : IType} (ht : type ≠ .dev) : NoHoles (blank type) :=
  ⟨⟨rfl, (by decide : 1000 ≤ 2 ^ 32), fun p _ _ _ _ h => (h (blank_val type p)).elim,
    fun p _ h => (h (blank_val type p)).elim⟩, ht,
    zero_le, fun bn hbn => absurd hbn (by rw [show (blank type).ip.size = 0 from rfl, nblocks_zero]; exact not_lt_zero),
    rfl⟩

theorem blank_enough (type : IType) {m : Nat} (hm : m ≤ MAXFILE * BSIZE) : Enough (blank type) m := by
  have hneed : need (blank type) (nblocks m) ≤ NSLOTS := by
    refine (Finset.card_filter_le _ _).trans ?_
    rw [Finset.card_range]
    exact nslots_le (nblocks_le_maxfile hm)
  have hfree : 940 ≤ free (blank type) := by
    have hsub : (Finset.range 940).map ⟨(· + 60), fun _ _ h => Nat.add_right_cancel h⟩ ⊆
        (Finset.range (blank type).nblocks).filter fun b => (blank type).used b = false := by
      intro b hb
      obtain ⟨c, hc, rfl⟩ := Finset.mem_map.1 hb
      have hc := Finset.mem_range.1 hc
      have hused : decide (c + 60 < 60) = false := decide_eq_false (by omega)
      exact Finset.mem_filter.2 ⟨Finset.mem_range.2 (Nat.add_lt_add_right hc 60), hused⟩
    have hcard := Finset.card_le_card hsub
    rwa [Finset.card_map, Finset.card_range] at hcard
  exact hneed.trans ((by decide : NSLOTS ≤ 940).trans hfree)

end Xv6.Content
