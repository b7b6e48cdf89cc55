/-
Growing and copying address spaces. New pages are taken from the free list and are zero, or copies of those of
another directory; where a page is missing on the way, growing gives back what it took and copying frees the
new directory.
-/
import Xv6.Vm.Kernel

namespace Xv6.Vm

open Base Function

/-! ## New pages -/

/-- The user pages from `lo` to `hi` of `d` are taken from the free list, with the permissions and the bytes
given for each; no other entry changes. -/
structure Adds (d lo hi : Nat) (perm : Nat → Nat) (bytes : Nat → Page) (s : St) (lab : Nat → Label) (s' : St)
    (lab' : Nat → Label) : Prop where
  grows : Grows d s lab s' lab'
  fresh : ∀ u, lo ≤ u → u < hi →
    ∃ f, lab f = .free ∧ word s' d u = f * PGSIZE ||| perm u ||| PTE_P ∧ frame (word s' d u) = f ∧ s'.mem f = bytes u
  same : ∀ u < 1024 * 1024, ¬(lo ≤ u ∧ u < hi) → word s' d u = word s d u

/-- The user pages from `lo` to `hi` of `d` are gone, and the others are as before. -/
structure Undone (d lo hi : Nat) (s : St) (lab : Nat → Label) (s' : St) (lab' : Nat → Label) : Prop where
  keeps : Keeps d s lab s' lab'
  none : ∀ u, lo ≤ u → u < hi → ¬present (word s' d u)
  same : ∀ u < 1024 * 1024, ¬(lo ≤ u ∧ u < hi) → word s' d u = word s d u
  mem : ∀ f u, lab f = .user d u → ¬(lo ≤ u ∧ u < hi) → s'.mem f = s.mem f

variable {L : Link} {pool : Nat → Prop} {s : St} {lab : Nat → Label} {d p v : Nat}

section

variable {s' s1 : St} {lab' lab1 : Nat → Label} {f lo hi : Nat}
  {perm : Nat → Nat} {bytes : Nat → Page}

theorem Good.word_eq (hg : Good L pool s lab) (hd : lab d = .dir) (hm : s'.mem d = s.mem d)
    (ht : ∀ f i, lab f = .table d i → s'.mem f = s.mem f) : ∀ u < 1024 * 1024, word s' d u = word s d u := fun u hu =>
  word_congr hm fun t h => ht t _ ((hg.table d (u / 1024) t).2 ⟨hd, Nat.div_lt_of_lt_mul hu, h⟩)

theorem Grows.free_of (h : Grows d s lab s' lab') (hf : lab' f = .free) : lab f = .free := by
  by_contra hne
  exact hne ((h.label f hne).symm.trans hf)

theorem Grows.word_other (h : Grows d s lab s' lab') (hg : Good L pool s lab) (hd : lab d = .dir) (hp : lab p = .dir)
    (hne : p ≠ d) : ∀ u < 1024 * 1024, word s' p u = word s p u := by
  refine hg.word_eq hp (h.mem p (by rw [hp]; decide) hne fun i hi => by rw [hp] at hi; cases hi) fun f i hf => ?_
  refine h.mem f (by rw [hf]; simp) (fun he => ?_) fun j hj => ?_
  · rw [he, hd] at hf; cases hf
  · rw [hf] at hj; injection hj with h1; exact hne h1

theorem Grows.mem_user (h : Grows d s lab s' lab') (hd : lab d = .dir) {u : Nat} (hf : lab f = .user p u) :
    s'.mem f = s.mem f := by
  refine h.mem f (by rw [hf]; simp) (fun he => ?_) fun i hi => ?_
  · rw [he, hd] at hf; cases hf
  · rw [hf] at hi; cases hi

theorem Adds.refl (hle : hi ≤ lo) : Adds d lo hi perm bytes s lab s lab :=
  ⟨.refl .., fun u h1 h2 => by omega, fun _ _ _ => rfl⟩

theorem Adds.congr {perm' : Nat → Nat} {bytes' : Nat → Page} (h : Adds d lo hi perm bytes s lab s' lab')
    (hp : ∀ u, lo ≤ u → u < hi → perm u = perm' u) (hb : ∀ u, lo ≤ u → u < hi → bytes u = bytes' u) :
    Adds d lo hi perm' bytes' s lab s' lab' := by
  refine ⟨h.grows, fun u h1 h2 => ?_, h.same⟩
  rw [← hp u h1 h2, ← hb u h1 h2]
  exact h.fresh u h1 h2

theorem Adds.cons (hg1 : Good L pool s1 lab1) (hd : lab d = .dir) (hfree : lab f = .free)
    (hgr : Grows d s lab s1 lab1) (hv : v < UPAGES) (hvhi : v < hi) (hperm : perm v < PGSIZE)
    (hb : s1.mem f = bytes v)
    (hw : ∀ u < 1024 * 1024, word s1 d u = if u = v then f * PGSIZE ||| perm v ||| PTE_P else word s d u)
    (h : Adds d (v + 1) hi perm bytes s1 lab1 s' lab') : Adds d v hi perm bytes s lab s' lab' := by
  have hv' := page_lt hv
  have hd1 := hgr.dir hd
  have hwv : word s1 d v = f * PGSIZE ||| perm v ||| PTE_P := (hw v hv').trans (if_pos rfl)
  have hfr : frame (f * PGSIZE ||| perm v ||| PTE_P) = f := (frame_or hperm).trans (Nat.mul_div_cancel f (by decide))
  have hf1 : lab1 f = .user d v := (hg1.user d v f).2 ⟨hd1, hv, hwv ▸ or_present _, hwv ▸ hfr⟩
  refine ⟨hgr.trans h.grows, fun u h1 h2 => ?_, fun u hu hn => ?_⟩
  · by_cases huv : u = v
    · rw [huv, h.same v hv' (by omega), hwv]
      exact ⟨f, hfree, rfl, hfr, (h.grows.mem_user hd1 hf1).trans hb⟩
    · obtain ⟨f', hf', h3⟩ := h.fresh u (by omega) h2; exact ⟨f', hgr.free_of hf', h3⟩
  · rw [h.same u hu (by omega), hw u hu, if_neg (by omega)]

theorem Undone.after (h : Undone d lo hi s1 lab1 s' lab') (hd : lab d = .dir) (hgr : Grows d s lab s1 lab1)
    (hw : ∀ u < 1024 * 1024, ¬(lo ≤ u ∧ u < hi) → word s1 d u = word s d u) : Undone d lo hi s lab s' lab' := by
  refine ⟨(hgr.keeps hd).trans h.keeps, h.none, fun u hu hn => ?_, fun f u hf hn => ?_⟩
  · rw [h.same u hu hn, hw u hu hn]
  · rw [h.mem f u (by rw [hgr.label f (by rw [hf]; simp), hf]) hn, hgr.mem_user hd hf]

theorem Shrinks.undone (h : Shrinks d lo hi s lab s') (hd : lab d = .dir) (hhi : hi ≤ UPAGES) :
    Undone d lo hi s lab s' (freed lab d lo hi) := by
  have hkeep : ∀ g, (lab g).base ≠ some d → freed lab d lo hi g = lab g := fun g hb =>
    freed_of_not fun u _ _ hl => hb (by rw [hl]; rfl)
  refine ⟨⟨hkeep d (by rw [hd]; simp [Label.base]), fun f _ _ hb => hkeep f hb, fun f _ _ hb => ?_, fun f _ hf => ?_⟩,
    fun u h1 h2 => ?_, fun u hu hn => ?_, fun f u hf hn => ?_⟩
  · exact h.mem f (fun i hi => hb (by rw [hi]; rfl)) (hkeep f hb)
  · by_cases hu : ∃ u, lo ≤ u ∧ u < hi ∧ lab f = .user d u
    · obtain ⟨u, h1, h2, hl⟩ := hu; exact .inl (freed_user hl h1 h2)
    · push Not at hu
      rwa [freed_of_not hu]
  · rw [h.word u (by unfold UPAGES KERNBASE PGSIZE at hhi; omega)]
    split
    · exact not_present_zero
    · next hn => exact fun hp => hn ⟨h1, h2, hp⟩
  · rw [h.word u hu, if_neg fun hc => hn ⟨hc.1, hc.2.1⟩]
  · refine h.mem f (fun i hi => by rw [hf] at hi; cases hi) (freed_of_not fun u' h1 h2 hl => ?_)
    rw [hf] at hl
    injection hl with _ h3
    exact hn (h3 ▸ ⟨h1, h2⟩)

/-- A page that was taken in between goes back to the free list. -/
theorem Undone.hand {s2 s3 : St} {lab2 : Nat → Label} (hg : Good L pool s lab) (hd : lab d = .dir)
    (hfree : lab f = .free) (hm1 : ∀ g, g ≠ f → s1.mem g = s.mem g) (hg2 : Good L pool s2 lab2)
    (h : Undone d lo hi s1 (update lab f .hand) s2 lab2) (hhi : hi ≤ UPAGES) (hm3 : ∀ g, g ≠ f → s3.mem g = s2.mem g) :
    Undone d lo hi s lab s3 (update lab2 f .free) := by
  have hne : ∀ g, lab g ≠ .free → g ≠ f := fun g hn he => hn (he ▸ hfree)
  have hlab : ∀ g, g ≠ f → update lab f .hand g = lab g := fun g hgf => update_of_ne hgf ..
  have hdf : d ≠ f := hne d (by rw [hd]; decide)
  have hf2 : lab2 f = .hand := by
    rw [h.keeps.label f (by rw [update_self]; decide) hdf.symm (by rw [update_self]; simp [Label.base]),
      update_self]
  have hd2 : lab2 d = .dir := by rw [h.keeps.dir, hlab d hdf, hd]
  have hw1 : ∀ u < 1024 * 1024, word s1 d u = word s d u :=
    hg.word_eq hd (hm1 d hdf) fun g i hgi => hm1 g (hne g (by rw [hgi]; simp))
  have hw3 : ∀ u < 1024 * 1024, word s3 d u = word s2 d u :=
    hg2.word_eq hd2 (hm3 d hdf) fun g i hgi => hm3 g fun he => by
    rw [he, hf2] at hgi; cases hgi
  refine ⟨⟨?_, fun g hgn hgd hb => ?_, fun g hgn hgd hb => ?_, fun g hgd hgl => ?_⟩, fun u h1 h2 => ?_,
    fun u hu hn => ?_, fun g u hgu hn => ?_⟩
  · rw [update_of_ne hdf, h.keeps.dir, hlab d hdf]
  · have hgf := hne g hgn
    rw [update_of_ne hgf, h.keeps.label g (by rwa [hlab g hgf]) hgd (by rwa [hlab g hgf]), hlab g hgf]
  · have hgf := hne g hgn
    rw [hm3 g hgf, h.keeps.mem g (by rwa [hlab g hgf]) hgd (by rwa [hlab g hgf]), hm1 g hgf]
  · by_cases hgf : g = f
    · rw [hgf, update_self]; exact .inl rfl
    · rw [update_of_ne hgf]; exact h.keeps.moved g hgd (by rwa [hlab g hgf])
  · rw [hw3 u (by unfold UPAGES KERNBASE PGSIZE at hhi; omega)]; exact h.none u h1 h2
  · rw [hw3 u hu, h.same u hu hn, hw1 u hu]
  · have hgf := hne g (by rw [hgu]; simp)
    rw [hm3 g hgf, h.mem g u (by rw [hlab g hgf, hgu]) hn, hm1 g hgf]

end

/-! ## `allocuvm` -/

variable {newsz oldsz more : Nat}

/-- The permissions of a new page. -/
def userPerm : Nat → Nat := fun _ => PTE_W ||| PTE_U

def zeroPage : Page := fun _ => 0

theorem allocLoop_ends (hsz : newsz < KERNBASE) : ∀ (n v : Nat) (s : St) (lab : Nat → Label),
    Good L pool s lab → lab d = .dir → pgs oldsz ≤ v → v ≤ UPAGES → UPAGES < v + n →
    Ends (fun e => e = .remap ∧ ∃ u, v ≤ u ∧ u < pgs newsz ∧ present (word s d u))
      (fun r s' => ∃ lab', Good L pool s' lab' ∧ ((r = 0 ∧ Undone d (pgs oldsz) (pgs newsz) s lab s' lab') ∨
        (r = newsz ∧ Adds d v (pgs newsz) userPerm (fun _ => zeroPage) s lab s' lab')))
      (allocLoop L d oldsz newsz n (v * PGSIZE) s) := by
  have hhi : pgs newsz ≤ UPAGES := pgs_le_upages hsz.le
  intro n
  induction n with
  | zero => intro v s lab _ _ _ h1 h2; omega
  | succ n ih =>
    intro v s lab hg hd hov hvU hn
    rw [allocLoop]
    refine .ite (fun hlt => ?_) fun hge => ?_
    · have hv := lt_upages hsz.le hlt
      have hvhi := lt_pgs_iff.2 hlt
      refine (kalloc_ends hg).bind ?_
      rintro r s1 ⟨hm1, hno, hsome⟩
      cases r with
      | none =>
        refine (deallocuvm_ends (hno rfl) hd hsz.le oldsz).bind ?_
        rintro _ s2 ⟨_, hg2, hs2⟩
        refine .ret ⟨_, hg2, .inl ⟨rfl, (hs2.undone hd hhi).after hd ?_ fun u hu _ => ?_⟩⟩
        · exact ⟨fun _ _ => rfl, fun g _ _ _ => congrFun hm1 g, fun _ h => .inl h⟩
        · exact word_congr (congrFun hm1 d) fun t _ => congrFun hm1 t
      | some f =>
        obtain ⟨hfree, hg1⟩ := hsome f rfl
        refine Ends.bind fill_ends ?_
        rintro _ _ rfl
        refine ((mapNew_ends hg hd (page_lt hv) (.inl hv) hfree hm1 hg1 (by decide) zeroPage).err
          fun e h => ⟨h.1, v, le_rfl, hvhi, h.2⟩).bind fun ok s2 h2 => ?_
        rcases h2 with ⟨rfl, hm2, hg2⟩ | ⟨rfl, hnp, lab2, hg2, hgr, hb, hw⟩
        · -- the page is given back behind those that are mapped already
          have hdf := ne_of_free hd hfree
          have hd2 : update lab f .hand d = .dir := by rw [update_of_ne hdf, hd]
          refine (deallocuvm_ends hg2 hd2 hsz.le oldsz).bind ?_
          rintro _ s3 ⟨_, hg3, hs3⟩
          have hu := hs3.undone hd2 hhi
          have hf3 := hu.keeps.label f (by rw [update_self]; decide) hdf.symm
            (by rw [update_self]; simp [Label.base])
          rw [update_self] at hf3
          refine (kfree_ends hg3 hf3).bind ?_
          rintro _ s4 ⟨hm4, hg4⟩
          exact .ret ⟨_, hg4, .inl ⟨rfl, .hand hg hd hfree hm2 hg3 hu hhi hm4⟩⟩
        · have hd2 := hgr.dir hd
          show Ends _ _ (allocLoop L d oldsz newsz n (add32 (v * PGSIZE) PGSIZE) s2)
          rw [add32_page hv]
          refine (ih (v + 1) s2 lab2 hg2 hd2 (by omega) hv (by omega)).mono (fun e h => ⟨h.1, ?_⟩) ?_
          · obtain ⟨u, h1, h2, h3⟩ := h.2
            rw [hw u (page_lt (by omega)), if_neg (by omega)] at h3
            exact ⟨u, by omega, h2, h3⟩
          · rintro r s3 ⟨lab3, hg3, ⟨h0, hu⟩ | ⟨h0, ha⟩⟩
            · refine ⟨lab3, hg3, .inl ⟨h0, hu.after hd hgr fun u hu hn => ?_⟩⟩
              rw [hw u hu, if_neg fun he => hn (by omega)]
            · exact ⟨lab3, hg3, .inr ⟨h0,
                .cons hg2 hd hfree hgr hv hvhi (show PTE_W ||| PTE_U < PGSIZE by decide) hb hw ha⟩⟩
    · exact .ret ⟨lab, hg, .inr ⟨rfl, .refl (not_lt.1 fun h => hge (lt_pgs_iff.1 h))⟩⟩

theorem allocuvm_ends (hg : Good L pool s lab) (hd : lab d = .dir) (oldsz newsz : Nat) :
    Ends (fun e => e = .remap ∧ newsz < KERNBASE ∧ ∃ u, pgs oldsz ≤ u ∧ u < pgs newsz ∧ present (word s d u))
      (fun r s' => ∃ lab', Good L pool s' lab' ∧
        ((r = 0 ∧ KERNBASE ≤ newsz ∧ s' = s ∧ lab' = lab) ∨ (r = oldsz ∧ newsz < oldsz ∧ s' = s ∧ lab' = lab) ∨
          (newsz < KERNBASE ∧ oldsz ≤ newsz ∧ ((r = 0 ∧ Undone d (pgs oldsz) (pgs newsz) s lab s' lab') ∨
            (r = newsz ∧ Adds d (pgs oldsz) (pgs newsz) userPerm (fun _ => zeroPage) s lab s' lab')))))
      (allocuvm L d oldsz newsz s) := by
  refine .ite (fun h => .ret ⟨lab, hg, .inl ⟨rfl, h, rfl, rfl⟩⟩) fun hK => .ite (fun h => ?_) fun hle => ?_
  · exact .ret ⟨lab, hg, .inr (.inl ⟨rfl, h, rfl, rfl⟩)⟩
  · have hsz : newsz < KERNBASE := not_le.1 hK
    have hold : oldsz ≤ newsz := not_lt.1 hle
    have holdK : oldsz ≤ KERNBASE := hold.trans hsz.le
    rw [PGROUNDUP_eq holdK]
    refine (allocLoop_ends hsz turns _ s lab hg hd le_rfl (pgs_le_upages holdK)
      (lt_of_lt_of_le (by decide : UPAGES < turns) le_add_self)).mono (fun e h => ⟨h.1, hsz, h.2⟩)
      fun r s' ⟨lab', hg', h⟩ => ⟨lab', hg', .inr (.inr ⟨hsz, hold, h⟩)⟩

theorem Room.take (h : Room s d (more + 1)) : ∃ f s1, kalloc s = .ok (some f, s1) ∧
    ∀ b, Room (filled s1 f b) d more := by
  obtain ⟨l, hl, hlen⟩ := h.enough
  obtain ⟨f, rest, hfree⟩ := List.exists_cons_of_length_pos (lt_of_lt_of_le (by omega) hlen)
  have hvalid := h.valid
  have hnf := h.free
  rw [hfree] at hvalid hnf hlen
  have hdf : d ≠ f := fun he => hnf (he ▸ List.mem_cons_self)
  have hk : kalloc s = .ok (some f, { s with free := rest, fails := s.fails.tail }) := by
    rw [kalloc, h.fails, if_neg (by simp), hfree]
  refine ⟨f, _, hk, fun b => ?_⟩
  have htab : ∀ i, tab (filled { s with free := rest, fails := s.fails.tail } f b) d i = tab s d i := fun i =>
    tab_congr (filled_mem_of_ne hdf)
  refine ⟨congrArg List.tail h.fails, fun g hg => hvalid g (List.mem_cons_of_mem f hg),
    fun hm => hnf (List.mem_cons_of_mem f hm), fun i => by rw [htab]; exact h.table i, l,
    fun i hi hno => hl i hi (htab i ▸ hno), ?_⟩
  rw [List.length_cons] at hlen
  exact Nat.le_of_succ_le_succ hlen

theorem mappages_room (h : Room s d more) (hv : v < UPAGES) (pa perm : Nat) :
    Ends (fun _ => True) (fun ok s' => ok = true ∧ Room s' d more) (mappages d (v * PGSIZE) PGSIZE pa perm s) := by
  rw [mappages_page (page_lt hv)]
  exact (mapPage_room h perm _ pa).post fun _ _ ⟨hok, h', _⟩ => ⟨hok, h'⟩

theorem allocLoop_room (hsz : newsz < KERNBASE) : ∀ (n v more : Nat) (s : St),
    Room s d (pgs newsz - v + more) → v ≤ UPAGES → UPAGES < v + n →
    Ends (fun _ => True) (fun r s' => r = newsz ∧ Room s' d more) (allocLoop L d oldsz newsz n (v * PGSIZE) s) := by
  intro n
  induction n with
  | zero => intro v more s _ h1 h2; omega
  | succ n ih =>
    intro v more s h hvU hn
    rw [allocLoop]
    refine .ite (fun hlt => ?_) fun hge => ?_
    · have hvhi := lt_pgs_iff.2 hlt
      rw [show pgs newsz - v + more = pgs newsz - (v + 1) + more + 1 by omega] at h
      obtain ⟨f, s1, hk, h1⟩ := h.take
      rw [bind_ok hk]
      refine Ends.bind fill_ends ?_
      rintro _ _ rfl
      have hv := lt_upages hsz.le hlt
      refine (mappages_room (h1 _) hv _ _).bind ?_
      rintro ok s2 ⟨hok, h2⟩
      refine .ite (fun _ => ?_) fun hno => (hno hok).elim
      rw [add32_page hv]
      exact ih (v + 1) more s2 h2 hv (by omega)
    · have hle : pgs newsz ≤ v := not_lt.1 fun h => hge (lt_pgs_iff.1 h)
      rw [Nat.sub_eq_zero_of_le hle, zero_add] at h
      exact .ret ⟨rfl, h⟩

/-- With a page for each table, and for each page that is added, `allocuvm` does not fail. -/
theorem allocuvm_room (h : Room s d (pgs newsz - pgs oldsz + more)) (hle : oldsz ≤ newsz) (hsz : newsz < KERNBASE) :
    Ends (fun _ => True) (fun r s' => r = newsz ∧ Room s' d more) (allocuvm L d oldsz newsz s) := by
  have hold := (hle.trans_lt hsz).le
  refine .ite (fun hK => absurd hK (not_le.2 hsz)) fun _ => .ite (fun hlt => absurd hlt (not_lt.2 hle)) fun _ => ?_
  rw [PGROUNDUP_eq hold]
  exact allocLoop_room hsz turns (pgs oldsz) more s h (pgs_le_upages hold) (lt_of_lt_of_le (by decide) le_add_self)

/-! ## `copyuvm` -/

variable {sz : Nat}

/-- The permissions and the bytes of the pages that are copied. -/
def flagsOf (s : St) (p : Nat) : Nat → Nat := fun u => PTE_FLAGS (word s p u)

def bytesOf (s : St) (p : Nat) : Nat → Page := fun u => s.mem (frame (word s p u))

theorem flagsOf_lt (s : St) (p u : Nat) : flagsOf s p u < PGSIZE := Nat.mod_lt _ (by decide)

theorem copyLoop_ends (hpd : p ≠ d) : ∀ (n v : Nat) (s : St) (lab : Nat → Label),
    Good L pool s lab → lab p = .dir → lab d = .dir → present (word s d UPAGES) → v ≤ UPAGES → UPAGES < v + n →
    Ends (fun e => ∃ u, v ≤ u ∧ u ≤ UPAGES ∧ u < pgs sz ∧ ((e = .remap ∧ present (word s d u)) ∨
        ((e = .copyNoPte ∨ e = .copyNotPresent) ∧ ¬present (word s p u))))
      (fun ok s' => ∃ lab', Good L pool s' lab' ∧ Keeps d s lab s' lab' ∧
        (ok = true → pgs sz ≤ UPAGES ∧ (∀ u, v ≤ u → u < pgs sz → present (word s p u)) ∧
          Adds d v (pgs sz) (flagsOf s p) (bytesOf s p) s lab s' lab'))
      (copyLoop L p d sz n (v * PGSIZE) s) := by
  intro n
  induction n with
  | zero => intro v s lab _ _ _ _ h1 h2; omega
  | succ n ih =>
    intro v s lab hg hp hd hker hvU hn
    have hv' : v < 1024 * 1024 := hvU.trans_lt (by decide)
    rw [copyLoop]
    refine .ite (fun hlt => ?_) fun hge => ?_
    · have hvhi := lt_pgs_iff.2 hlt
      rw [bind_ok (walkpgdir_look s p (v * PGSIZE)), PDX_page hv', PTX_page]
      cases htab : tab s p (v / 1024) with
      | none => exact .fail ⟨v, le_rfl, hvU, hvhi, .inr ⟨.inl rfl, by rw [word_none htab]; exact not_present_zero⟩⟩
      | some t =>
        show Ends _ _ ((get >>= fun s => _ : M Bool) s)
        rw [get_bind, ← word_some htab]
        refine .ite (fun hnp => .fail ⟨v, le_rfl, hvU, hvhi, .inr ⟨.inr rfl, hnp⟩⟩) fun hpr => ?_
        refine (kalloc_ends hg).bind ?_
        rintro r s1 ⟨hm1, hno, hsome⟩
        cases r with
        | none =>
          refine .ret ⟨lab, hno rfl, ⟨rfl, fun _ _ _ _ => rfl, fun g _ _ _ => congrFun hm1 g, fun _ _ h => h⟩,
            fun h => ?_⟩
          cases h
        | some f =>
          obtain ⟨hfree, hg1⟩ := hsome f rfl
          refine Ends.bind fill_ends ?_
          rintro _ _ rfl
          have hU : v < UPAGES ∨ present (word s d v) := (lt_or_eq_of_le hvU).imp id fun he => by rwa [he]
          refine ((mapNew_ends hg hd hv' hU hfree hm1 hg1 (flagsOf_lt s p v) (bytesOf s p v)).err
            fun e h => ⟨v, le_rfl, hvU, hvhi, .inl h⟩).bind fun ok s2 h2 => ?_
          rcases h2 with ⟨rfl, hm2, hg2⟩ | ⟨rfl, hnp, lab2, hg2, hgr, hb, hw⟩
          · refine (kfree_ends hg2 (update_self ..)).bind ?_
            rintro _ s3 ⟨hm3, hg3⟩
            rw [update_idem, ← hfree, update_eq_self] at hg3
            refine .ret ⟨lab, hg3, ⟨rfl, fun _ _ _ _ => rfl, fun g hgn _ _ => ?_, fun _ _ h => h⟩, fun h => by cases h⟩
            have hgf : g ≠ f := fun he => hgn (he ▸ hfree)
            rw [hm3 g hgf, hm2 g hgf]
          · have hv := hU.resolve_right hnp
            have hp2 := hgr.dir hp
            have hd2 := hgr.dir hd
            have hwp := hgr.word_other hg hd hp hpd
            show Ends _ _ (copyLoop L p d sz n (add32 (v * PGSIZE) PGSIZE) s2)
            rw [add32_page hv]
            refine (ih (v + 1) s2 lab2 hg2 hp2 hd2 ?_ hv (by omega)).mono ?_ fun ok s3 ⟨lab3, hg3, hk3, h3⟩ => ?_
            · rwa [hw UPAGES (by decide), if_neg (by omega)]
            · rintro e ⟨u, h1, h2, h3, h4⟩
              have hu : u < 1024 * 1024 := h2.trans_lt (by decide)
              rw [hw u hu, if_neg (by omega), hwp u hu] at h4
              exact ⟨u, by omega, h2, h3, h4⟩
            · refine ⟨lab3, hg3, (hgr.keeps hd).trans hk3, fun hok => ?_⟩
              obtain ⟨hszU, hall, ha⟩ := h3 hok
              have hu' : ∀ {u}, u < pgs sz → u < 1024 * 1024 := fun h => page_lt (h.trans_le hszU)
              have hall' : ∀ u, v ≤ u → u < pgs sz → present (word s p u) := by
                intro u h1 h2
                by_cases huv : u = v
                · rw [huv]; exact not_not.1 hpr
                · rw [← hwp u (hu' h2)]; exact hall u (by omega) h2
              refine ⟨hszU, hall', .cons hg2 hd hfree hgr hv hvhi (flagsOf_lt s p v) hb hw
                (ha.congr (fun u h1 h2 => ?_) fun u h1 h2 => ?_)⟩
              · rw [flagsOf, flagsOf, hwp u (hu' h2)]
              · have hl := (hg.user p u _).2 ⟨hp, h2.trans_le hszU, hall' u (by omega) h2, rfl⟩
                rw [bytesOf, bytesOf, hwp u (hu' h2), hgr.mem_user hd hl]
    · have hszv : pgs sz ≤ v := not_lt.1 fun h => hge (lt_pgs_iff.1 h)
      exact .ret ⟨lab, hg, .refl .., fun _ => ⟨hszv.trans hvU, fun u h1 h2 => by omega, .refl hszv⟩⟩

/-- The copy is a new directory with pages of its own, or there is nothing new. -/
theorem copyuvm_ends (hg : Good L pool s lab) (hp : lab p = .dir) (sz : Nat) :
    Ends (fun e => ∃ u, u < pgs sz ∧ ((e = .remap ∧ UPAGES ≤ u) ∨
        ((e = .copyNoPte ∨ e = .copyNotPresent) ∧ ¬present (word s p u))))
      (fun r s' => (r = none ∧ Good L pool s' lab ∧ ∀ g, lab g ≠ .free → s'.mem g = s.mem g) ∨
        ∃ d lab', r = some d ∧ lab d = .free ∧ Good L pool s' lab' ∧ Grows d s (update lab d .dir) s' lab' ∧
          (∀ u < pgs sz, ∃ f, lab f = .free ∧ word s' d u = f * PGSIZE ||| flagsOf s p u ||| PTE_P ∧
            frame (word s' d u) = f ∧ s'.mem f = bytesOf s p u) ∧
          ∀ u < 1024 * 1024, pgs sz ≤ u → word s' d u = kentry (kmap L) u)
      (copyuvm L p sz s) := by
  refine (setupkvm_ends hg).bind fun r s1 h1 => ?_
  rcases h1 with ⟨rfl, hg1, hm1⟩ | ⟨d, lab1, rfl, hfree, hg1, hgr1, hw1⟩
  · exact .ret (.inl ⟨rfl, hg1, hm1⟩)
  have hpd : p ≠ d := fun he => by
    rw [he, hfree] at hp; cases hp
  have hlab : ∀ {g}, lab g ≠ .free → update lab d .dir g = lab g := by
    intro g hgn
    have hgd : g ≠ d := fun he => hgn (he ▸ hfree)
    exact update_of_ne hgd ..
  have hl1 : ∀ {g}, lab g ≠ .free → lab1 g = lab g := fun hgn => (hgr1.label _ (by rwa [hlab hgn])).trans (hlab hgn)
  have hd1 := hgr1.dir (update_self ..)
  have hp1 : lab1 p = .dir := by rw [hl1 (by rw [hp]; decide), hp]
  -- the pages of the parent did not change
  have hm1 : ∀ g, lab g ≠ .free → s1.mem g = s.mem g := fun g hgn =>
    hgr1.mem g (by rwa [hlab hgn]) (fun he => hgn (he ▸ hfree)) fun i hi => by
      rw [hlab hgn] at hi
      exact hg.base_ne (by rw [hfree]; decide : lab d ≠ .dir) g (by rw [hi]; rfl)
  have hwp : ∀ u < 1024 * 1024, word s1 p u = word s p u :=
    hg.word_eq hp (hm1 p (by rw [hp]; decide)) fun f i hf => hm1 f (by rw [hf]; simp)
  have hUle : UPAGES < 1024 * 1024 := by decide
  refine ((copyLoop_ends hpd turns 0 s1 lab1 hg1 hp1 hd1 ?_ zero_le (by decide)).err ?_).bind
    fun ok s2 ⟨lab2, hg2, hk2, h2⟩ => ?_
  · rw [hw1 UPAGES hUle]; exact kentry_first L
  · rintro e ⟨u, -, hu, hsz, h⟩
    refine ⟨u, hsz, h.imp (fun ⟨he, hpr⟩ => ⟨he, ?_⟩) fun ⟨he, hnp⟩ => ⟨he, ?_⟩⟩
    · by_contra hlt
      rw [hw1 u (by omega), kentry_below (kmap_rows ?_) (by omega)] at hpr
      · exact not_present_zero hpr
      · have hv := hg.valid d ((hg.inside d).1 (by rw [hfree]; decide))
        exact L.data_le.trans_lt (hv.1.trans_lt hv.2)
    · rwa [← hwp u (by omega)]
  refine .ite (fun hok => ?_) fun _ => ?_
  · obtain ⟨hszU, hall, ha⟩ := h2 hok
    refine .ret (.inr ⟨d, lab2, rfl, hfree, hg2, hgr1.trans ha.grows, fun u hu => ?_, fun u hu hsz => ?_⟩)
    · obtain ⟨f, hf, hwf, hfr, hb⟩ := ha.fresh u zero_le hu
      have hfd : f ≠ d := fun he => by
        rw [he, hd1] at hf; cases hf
      have hff := hgr1.free_of hf
      rw [update_of_ne hfd] at hff
      have huU := hu.trans_le hszU
      have hwu := hwp u (huU.trans hUle)
      have hpr := hall u zero_le hu
      have hl := (hg.user p u _).2 ⟨hp, huU, hwu ▸ hpr, rfl⟩
      refine ⟨f, hff, ?_, hfr, ?_⟩
      · rw [hwf, flagsOf, flagsOf, hwu]
      · rw [hb, bytesOf, bytesOf, hwu, hm1 _ (by rw [hl]; simp)]
    · rw [ha.same u hu (by omega), hw1 u hu]
  · refine (freevm_new hg hfree hg2 ((hgr1.keeps (update_self ..)).trans hk2)).bind fun _ s3 h => ?_
    exact .ret (.inl ⟨rfl, h⟩)

theorem copyLoop_room (hsz : sz ≤ KERNBASE) : ∀ (n v more : Nat) (s : St), Room s d (pgs sz - v + more) →
    Ends (fun _ => True) (fun ok _ => ok = true) (copyLoop L p d sz n (v * PGSIZE) s) := by
  intro n
  induction n with
  | zero => exact fun _ _ _ _ => .fail trivial
  | succ n ih =>
    intro v more s h
    rw [copyLoop]
    refine .ite (fun hlt => ?_) fun _ => .ret rfl
    have hvhi := lt_pgs_iff.2 hlt
    have hv := lt_upages hsz hlt
    rw [bind_ok (walkpgdir_look s p (v * PGSIZE)), PDX_page (page_lt hv)]
    cases tab s p (v / 1024) with
    | none => exact .fail trivial
    | some t =>
      show Ends _ _ ((get >>= fun s => _ : M Bool) s)
      rw [get_bind]
      refine .ite (fun _ => .fail trivial) fun _ => ?_
      rw [show pgs sz - v + more = pgs sz - (v + 1) + more + 1 by omega] at h
      obtain ⟨f, s1, hk, h1⟩ := h.take
      rw [bind_ok hk]
      refine Ends.bind fill_ends ?_
      rintro _ _ rfl
      refine (mappages_room (h1 _) hv _ _).bind ?_
      rintro ok s2 ⟨hok, h2⟩
      refine .ite (fun _ => ?_) fun hno => (hno hok).elim
      rw [add32_page hv]
      exact ih (v + 1) more s2 h2

/-- With a page for the directory, one for each table and one for each page of the parent `copyuvm` does not fail. -/
theorem copyuvm_room {rest : List Nat} (hfails : s.fails = []) (hfree : s.free = d :: rest)
    (hvalid : ∀ f ∈ s.free, L.stop ≤ f * PGSIZE ∧ f * PGSIZE < PHYSTOP) (hnd : s.free.Nodup) (hsz : sz ≤ KERNBASE)
    (hlen : NPDENTRIES + pgs sz ≤ rest.length) : Ends (fun _ => True) (fun r _ => r = some d) (copyuvm L p sz s) := by
  refine (setupkvm_room hfails hfree hvalid hnd hlen).bind fun r s1 ⟨hr, h1, _⟩ => ?_
  subst hr
  refine (copyLoop_room hsz turns 0 0 s1 h1).bind fun ok s2 hok => ?_
  exact .ite (fun _ => .ret rfl) fun hno => (hno hok).elim

end Xv6.Vm
