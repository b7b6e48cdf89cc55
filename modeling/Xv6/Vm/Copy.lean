/-
`copyuvm` makes an independent copy: every byte of the parent below the size, with the same permissions, in
pages that nobody else has, and the kernel's part of `setupkvm`. Whatever happens, the parent does not change.
-/
import Mathlib.Data.Finset.Card
import Xv6.Vm.Conserve
import Xv6.Vm.Resize

namespace Xv6.Vm

open Base Function

/-- The byte at the user address `a`. -/
def ubyte (s : St) (d a : Nat) : UInt8 := s.mem (frame (word s d (a / PGSIZE))) (a % PGSIZE)

/-- No other entry of a user part leads to the page of `v`. -/
def Unshared (s : St) (dirs : Nat → Prop) (d v : Nat) : Prop :=
  ∀ d' v' w, dirs d' → v' < UPAGES → umap s d' v' = some w → frame w = frame (word s d v) → d' = d ∧ v' = v

variable {f : Nat}

section

variable {w perm : Nat}

theorem or_present_self (h : present w) : w ||| PTE_P = w := by
  refine Nat.eq_of_testBit_eq fun i => ?_
  rw [Nat.testBit_or]
  cases i with
  | zero => rw [Nat.testBit_zero, show w % 2 = 1 from h]; rfl
  | succ i =>
    have h1 : PTE_P.testBit (i + 1) = false := Nat.testBit_lt_two_pow (Nat.one_lt_two_pow (Nat.succ_ne_zero i))
    rw [h1, Bool.or_false]

theorem flags_or (h : perm < PGSIZE) : PTE_FLAGS (f * PGSIZE ||| perm ||| PTE_P) = perm ||| PTE_P := by
  show (f * 2 ^ 12 ||| perm ||| PTE_P) % 2 ^ 12 = perm ||| PTE_P
  rw [Nat.or_assoc, Nat.or_mod_two_pow, Nat.mul_mod_left, Nat.zero_or]
  exact Nat.mod_eq_of_lt (Nat.or_lt_two_pow h (by decide))

theorem present_flags : present (PTE_FLAGS w) ↔ present w := by
  unfold present PTE_FLAGS PGSIZE; omega

end

variable {s : St} {lab : Nat → Label}

section

variable {L : Link} {pool : Nat → Prop} {p sz : Nat}

theorem not_all_present (hg : Good L pool s lab) (hp : lab p = .dir) : ∃ v < UPAGES, ¬present (word s p v) := by
  by_contra hall
  push Not at hall
  have hl : ∀ v < UPAGES, lab (frame (word s p v)) = .user p v := fun v hv => (hg.user p v _).2 ⟨hp, hv, hall v hv, rfl⟩
  have hmaps : ∀ v ∈ Finset.range UPAGES, frame (word s p v) ∈ Finset.range (PHYSTOP / PGSIZE) := fun v hv => by
    rw [Finset.mem_range] at hv ⊢
    have h := (hg.valid _ ((hg.inside _).1 (by rw [hl v hv]; simp))).2
    rw [← show PHYSTOP / PGSIZE * PGSIZE = PHYSTOP by decide] at h
    exact Nat.lt_of_mul_lt_mul_right h
  have hinj : Set.InjOn (fun v => frame (word s p v)) (Finset.range UPAGES) := by
    intro u hu v hv he
    have he' : frame (word s p u) = frame (word s p v) := he
    have h1 := hl u (Finset.mem_range.1 hu)
    rw [he', hl v (Finset.mem_range.1 hv)] at h1
    injection h1 with _ h2
    exact h2.symm
  have hcard := Finset.card_le_card_of_injOn _ hmaps hinj
  rw [Finset.card_range, Finset.card_range] at hcard
  exact absurd hcard (by decide)

theorem pgs_le_of_present (hg : Good L pool s lab) (hp : lab p = .dir)
    (hall : ∀ v, v * PGSIZE < sz → present (word s p v)) :
    pgs sz ≤ UPAGES := by
  obtain ⟨v, hv, hnp⟩ := not_all_present hg hp
  refine (not_lt.1 fun h => hnp (hall v ?_)).trans hv.le
  exact lt_pgs_iff.1 h

/-- The copy has the parent's bytes and permissions below the size, in pages from the free list that no other
entry has, nothing above it but the kernel's part, or the free list is as it was; what was in use has not changed. -/
theorem copyuvm_independent (hg : Good L pool s lab) (hp : lab p = .dir)
    (hall : ∀ v, v * PGSIZE < sz → present (word s p v)) :
    ∃ r s', copyuvm L p sz s = .ok (r, s') ∧ (∀ f, f ∉ s.free → s'.mem f = s.mem f) ∧
      (∀ u < 1024 * 1024, word s' p u = word s p u) ∧
      ((r = none ∧ ∀ f, f ∈ s'.free ↔ f ∈ s.free) ∨
      ∃ d, r = some d ∧ d ∈ s.free ∧ (∀ a < sz, ubyte s' d a = ubyte s p a) ∧
        (∀ v, v * PGSIZE < sz → PTE_FLAGS (word s' d v) = PTE_FLAGS (word s p v) ∧ frame (word s' d v) ∈ s.free ∧
          frame (word s' d v) ∉ s'.free ∧ Unshared s' (fun d' => d' = d ∨ lab d' = .dir) d v) ∧
        ∀ u < 1024 * 1024, sz ≤ u * PGSIZE → word s' d u = kentry (kmap L) u) := by
  have hszU := pgs_le_of_present hg hp hall
  have hok : Ends (fun _ => False) _ (copyuvm L p sz s) := (copyuvm_ends hg hp sz).err fun e ⟨u, hu, h⟩ => by
    rcases h with ⟨-, h⟩ | ⟨-, h⟩
    · omega
    · exact h (hall u (lt_pgs_iff.1 hu))
  obtain ⟨r, s', hs, h⟩ := hok.exists_ok
  rcases h with ⟨rfl, hg', hm⟩ | ⟨d, lab', rfl, hfree, hg', hgr, hnew, hker⟩
  · have hmem : ∀ f, f ∉ s.free → s'.mem f = s.mem f := fun f hf => hm f fun hl => hf ((hg.free f).2 hl)
    refine ⟨none, s', hs, hmem, hg.word_eq hp ?_ fun f i hf => ?_,
      .inl ⟨rfl, fun f => (hg'.free f).trans (hg.free f).symm⟩⟩
    · exact hm p (by rw [hp]; decide)
    · exact hm f (by rw [hf]; simp)
  · have hlab : ∀ {f}, lab f ≠ .free → update lab d .dir f = lab f := fun {f} hf => by
      have hfd : f ≠ d := fun he => hf (he ▸ hfree)
      exact update_of_ne hfd ..
    have hm : ∀ f, lab f ≠ .free → s'.mem f = s.mem f := fun f hf =>
      hgr.mem f (by rwa [hlab hf]) (fun he => hf (he ▸ hfree)) fun i hi => by
        rw [hlab hf] at hi
        exact hg.base_ne (by rw [hfree]; decide : lab d ≠ .dir) f (by rw [hi]; rfl)
    have hd' := hgr.dir (update_self ..)
    have huser : ∀ {v}, v < pgs sz → lab' (frame (word s' d v)) = .user d v := fun {v} hv => by
      obtain ⟨f, -, hw, -⟩ := hnew v hv
      exact (hg'.user d v _).2 ⟨hd', hv.trans_le hszU, hw ▸ or_present _, rfl⟩
    refine ⟨some d, s', hs, fun f hf => hm f fun hl => hf ((hg.free f).2 hl), hg.word_eq hp (hm p (by rw [hp]; decide))
      (fun f i hf => hm f (by rw [hf]; simp)),
      .inr ⟨d, rfl, (hg.free d).2 hfree, fun a ha => ?_, fun v hv => ?_, fun u hu hsz => ?_⟩⟩
    · obtain ⟨f, -, -, hfr, hb⟩ := hnew (a / PGSIZE) (lt_pgs_iff.2 ((Nat.div_mul_le_self a PGSIZE).trans_lt ha))
      rw [ubyte, hfr, hb]
      rfl
    · have hv' := lt_pgs_iff.2 hv
      obtain ⟨f, hff, hw, hfr, -⟩ := hnew v hv'
      have hl := huser hv'
      refine ⟨?_, by rwa [hfr, hg.free], by rw [hg'.free, hl]; simp, fun d' u w hdir hu hwu he => ?_⟩
      · rw [hw, flags_or (flagsOf_lt s p v)]
        exact or_present_self (present_flags.2 (hall v hv))
      · have hdir' : lab' d' = .dir := by
          rcases hdir with rfl | hdir
          · exact hd'
          · have hnf : lab d' ≠ .free := by rw [hdir]; decide
            rw [hgr.label d' (by rwa [hlab hnf]), hlab hnf, hdir]
        have h1 := user_of_umap hg' hdir' hu hwu
        rw [he, hl] at h1
        injection h1 with h1 h2
        exact ⟨h1.symm, h2.symm⟩
    · refine hker u hu (not_lt.1 fun h => ?_)
      exact absurd (lt_pgs_iff.1 h) (not_lt.2 hsz)

end

section

variable (h : Process s lab f)

include h

/-- There are pages enough for a copy of the process. -/
theorem Process.copy :
    Ends (fun _ => True) (fun r _ => ∃ d, r = some d) (copyuvm link 0x200 PGSIZE s) := by
  obtain ⟨l, -, hlen⟩ := h.room.enough
  obtain ⟨d, rest, hfree⟩ := List.exists_cons_of_length_pos (lt_of_lt_of_le (by omega) hlen)
  have hvalid : ∀ f ∈ s.free, link.stop ≤ f * PGSIZE ∧ f * PGSIZE < PHYSTOP := fun f hf =>
    h.good.valid f ((h.good.inside f).1 (by rw [(h.good.free f).1 hf]; decide))
  refine (copyuvm_room h.room.fails hfree hvalid h.good.nodup (by decide) ?_).post fun r _ hr => ⟨d, hr⟩
  rw [hfree, List.length_cons] at hlen
  have hneed : NPDENTRIES + pgs PGSIZE = 1025 := by decide
  omega

theorem Process.present :
    ∀ v, v * PGSIZE < PGSIZE → present (word s 0x200 v) := by
  intro v hv
  obtain rfl : v = 0 := by
    unfold PGSIZE at hv; omega
  rw [h.page]
  exact or_present _

theorem Process.frame_eq : frame (word s 0x200 0) = f := by
  rw [h.page, frame_or (by decide)]; exact Nat.mul_div_cancel f (by decide)

theorem Process.ubyte_zero : ∀ a < PGSIZE, ubyte s 0x200 a = 0 := by
  intro a ha; rw [ubyte, Nat.div_eq_of_lt ha, h.frame_eq, h.zero]; rfl

end

/-- The process with one page is copied, with its zeros and its permissions, into another page. -/
theorem copyuvm_independent_process : ∃ s d s', copyuvm link 0x200 PGSIZE s = .ok (some d, s') ∧
    (∀ a < PGSIZE, ubyte s 0x200 a = 0 ∧ ubyte s' d a = 0) ∧ PTE_FLAGS (word s' d 0) = PTE_W ||| PTE_U ||| PTE_P ∧
    frame (word s' d 0) ≠ frame (word s 0x200 0) ∧ present (word s' d UPAGES) := by
  obtain ⟨-, s, lab, f, -, -, h⟩ := boot_process
  have hcopy := h.copy
  obtain ⟨r, s', hs, -, -, hr⟩ := copyuvm_independent h.good h.dir h.present
  rw [hs] at hcopy
  obtain ⟨d, rfl⟩ := hcopy
  rcases hr with ⟨hr, -⟩ | ⟨d', hr, -, hbytes, hpages, hker⟩
  · cases hr
  obtain rfl := Option.some.inj hr
  obtain ⟨hflags, hnew, -⟩ := hpages 0 (by decide)
  refine ⟨s, d, s', hs, fun a ha => ⟨h.ubyte_zero a ha, (hbytes a ha).trans (h.ubyte_zero a ha)⟩, ?_, fun he => ?_, ?_⟩
  · rw [hflags, h.page, flags_or (by decide)]
  · -- the page of the parent is not on the free list
    have hused := (h.good.user 0x200 0 f).2 ⟨h.dir, by decide, h.present 0 (by decide), h.frame_eq⟩
    rw [he, h.frame_eq, h.good.free, hused] at hnew
    cases hnew
  · rw [hker UPAGES (by decide) (by decide)]; exact kentry_first link

end Xv6.Vm
