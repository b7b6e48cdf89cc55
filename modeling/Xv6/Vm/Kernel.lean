/-
The kernel's part of an address space. The rows of `kmap` are disjoint ranges above the user part, so mapping
them into an empty directory meets no page that is mapped already; `setupkvm` ends with a directory that has
exactly these pages, or with everything back on the free list.
-/
import Xv6.Vm.Calls

namespace Xv6.Vm

open Base Function

/-- Page `u` lies in the range of the row. -/
def Kmap.Covers (k : Kmap) (u : Nat) : Prop := k.virt ≤ u * PGSIZE ∧ u * PGSIZE - k.virt < sub32 k.phys_end k.phys_start

instance (k : Kmap) (u : Nat) : Decidable (k.Covers u) :=
  inferInstanceAs (Decidable (k.virt ≤ u * PGSIZE ∧ u * PGSIZE - k.virt < sub32 k.phys_end k.phys_start))

/-- The entry that the rows give to page `u`, 0 where there is none. -/
def kentry : List Kmap → Nat → Nat
  | [], _ => 0
  | k :: ks, u => if k.Covers u then k.phys_start + (u * PGSIZE - k.virt) ||| k.perm ||| PTE_P else kentry ks u

/-- The row maps the `n + 1` pages from `v` on, all in the kernel's part. -/
structure Row (k : Kmap) (v n : Nat) : Prop where
  virt : k.virt = v * PGSIZE
  size : sub32 k.phys_end k.phys_start = (n + 1) * PGSIZE
  above : UPAGES ≤ v
  top : v + n < 1024 * 1024
  phys : k.phys_start + n * PGSIZE < 2 ^ 32
  perm : k.perm < PGSIZE

/-- The rows are in order, from page `lo` on. -/
def Rows : Nat → List Kmap → Prop
  | _, [] => True
  | lo, k :: ks => ∃ v n, lo ≤ v ∧ Row k v n ∧ Rows (v + n + 1) ks

variable {L : Link}

section

variable {k : Kmap} {ks : List Kmap} {v n lo u : Nat}

theorem Row.covers_iff (h : Row k v n) : k.Covers u ↔ v ≤ u ∧ u ≤ v + n := by
  rw [Kmap.Covers, h.virt, h.size]; unfold PGSIZE; omega

theorem Row.phys_eq (h : Row k v n) (hu : v ≤ u) : u * PGSIZE - k.virt = (u - v) * PGSIZE := by
  rw [h.virt]; unfold PGSIZE; omega

theorem mappages_row (h : Row k v n) (d : Nat) : mappages d k.virt (sub32 k.phys_end k.phys_start) k.phys_start k.perm =
    mapLoop d k.perm n (v * PGSIZE) k.phys_start := by
  have htop := h.top
  have h1 : PGROUNDDOWN (v * PGSIZE) = v * PGSIZE := by
    unfold PGROUNDDOWN PGSIZE; omega
  have h2 : PGROUNDDOWN (sub32 (add32 (v * PGSIZE) ((n + 1) * PGSIZE)) 1) = (v + n) * PGSIZE := by
    unfold PGROUNDDOWN sub32 add32 PGSIZE; omega
  have h3 : sub32 ((v + n) * PGSIZE) (v * PGSIZE) / PGSIZE = n := by
    unfold sub32 PGSIZE; omega
  rw [mappages, h.virt, h.size, h1, h2, h3]

theorem kentry_below : ∀ {ks : List Kmap} {lo : Nat}, Rows lo ks → u < lo → kentry ks u = 0
  | [], _, _, _ => rfl
  | k :: ks, lo, ⟨v, n, hlo, hrow, hrest⟩, hu => by
    rw [kentry, if_neg fun hc => ?_, kentry_below hrest (by omega)]
    have h := hrow.covers_iff.1 hc
    omega

theorem kmap_rows (h : L.data < PHYSTOP) : Rows UPAGES (kmap L) := by
  have page := L.page
  have text := L.text
  unfold PGSIZE at page
  unfold EXTMEM at text
  unfold PHYSTOP at h
  refine ⟨0x80000, 0xff, by decide, ⟨by decide, by decide, by decide, by decide, by decide, by decide⟩, ?_⟩
  refine ⟨0x80100, (L.data - 0x100000) / 4096 - 1, by decide,
    ⟨(by decide : KERNBASE + EXTMEM = 0x80100 * PGSIZE), ?_, by decide, ?_, ?_, (by decide : 0 < PGSIZE)⟩, ?_⟩
  · show (L.data + 2 ^ 32 - 0x100000) % 2 ^ 32 = ((L.data - 0x100000) / 4096 - 1 + 1) * 4096
    omega
  · show 0x80100 + ((L.data - 0x100000) / 4096 - 1) < 1024 * 1024; omega
  · show 0x100000 + ((L.data - 0x100000) / 4096 - 1) * 4096 < 2 ^ 32; omega
  refine ⟨0x80000 + L.data / 4096, (0xE000000 - L.data) / 4096 - 1, ?_,
    ⟨?_, ?_, ?_, ?_, ?_, (by decide : PTE_W < PGSIZE)⟩, ?_⟩
  · show 0x80100 + ((L.data - 0x100000) / 4096 - 1) + 1 ≤ 0x80000 + L.data / 4096; omega
  · show 0x80000000 + L.data = (0x80000 + L.data / 4096) * 4096; omega
  · show (0xE000000 + 2 ^ 32 - L.data) % 2 ^ 32 = ((0xE000000 - L.data) / 4096 - 1 + 1) * 4096
    omega
  · show 0x80000 ≤ 0x80000 + L.data / 4096; omega
  · show 0x80000 + L.data / 4096 + ((0xE000000 - L.data) / 4096 - 1) < 1024 * 1024; omega
  · show L.data + ((0xE000000 - L.data) / 4096 - 1) * 4096 < 2 ^ 32; omega
  refine ⟨0xFE000, 0x1fff, ?_, ⟨by decide, by decide, by decide, by decide, by decide, by decide⟩, trivial⟩
  show 0x80000 + L.data / 4096 + ((0xE000000 - L.data) / 4096 - 1) + 1 ≤ 0xFE000
  omega

theorem kentry_first (L : Link) : present (kentry (kmap L) UPAGES) := by
  have hc : Kmap.Covers ⟨KERNBASE, 0, EXTMEM, PTE_W⟩ UPAGES := by decide
  rw [kmap, kentry, if_pos hc]
  exact or_present _

end

variable {E : Panic → Prop} {d : Nat} {s : St}

section

variable {pool : Nat → Prop}

theorem mapLoop_ends {perm : Nat} (hperm : perm < PGSIZE) : ∀ (n v pa : Nat) (s : St) (lab : Nat → Label),
    Good L pool s lab → lab d = .dir → UPAGES ≤ v → v + n < 1024 * 1024 → pa + n * PGSIZE < 2 ^ 32 →
    (∀ u, v ≤ u → u ≤ v + n → ¬present (word s d u)) →
    Ends E (fun ok s' => ∃ lab', Good L pool s' lab' ∧ Grows d s lab s' lab' ∧
      (ok = true → ∀ u < 1024 * 1024, word s' d u =
        if v ≤ u ∧ u ≤ v + n then pa + (u - v) * PGSIZE ||| perm ||| PTE_P else word s d u))
      (mapLoop d perm n (v * PGSIZE) pa s) := by
  intro n
  induction n with
  | zero =>
    intro v pa s lab hg hd hU hv hpa hnp
    rw [mapLoop]
    refine (mapPage_kernel (v := v) hg hd hv hU hperm (by omega)).mono (fun e h => (hnp v le_rfl le_rfl h.2).elim) ?_
    rintro ok s' ⟨lab', hg', hgr, hword⟩
    refine ⟨lab', hg', hgr, fun hok u hu => (hword hok u hu).trans ?_⟩
    by_cases huv : u = v
    · rw [if_pos huv, if_pos (by omega), huv, Nat.sub_self, zero_mul, add_zero]
    · rw [if_neg huv, if_neg (by omega)]
  | succ n ih =>
    intro v pa s lab hg hd hU hv hpa hnp
    have hpa' : pa + PGSIZE + n * PGSIZE < 2 ^ 32 := by rwa [add_assoc, add_comm PGSIZE, ← Nat.succ_mul]
    have ha : add32 (v * PGSIZE) PGSIZE = (v + 1) * PGSIZE := add32_next (by omega)
    have hb : add32 pa PGSIZE = pa + PGSIZE := Nat.mod_eq_of_lt (by omega)
    rw [mapLoop, ha, hb]
    refine Ends.bind ((mapPage_kernel hg hd (by omega) hU hperm (by omega)).err
      fun e h => (hnp v le_rfl (by omega) h.2).elim) ?_
    rintro ok s1 ⟨lab1, hg1, hgr1, hword1⟩
    refine .ite (fun hok => ?_) fun hok => .ret ⟨lab1, hg1, hgr1, fun h => by cases h⟩
    have hw1 := hword1 hok
    have hd1 := hgr1.dir hd
    refine (ih (v + 1) (pa + PGSIZE) s1 lab1 hg1 hd1 (by omega) (by omega) hpa' fun u h1 h2 => ?_).post ?_
    · rw [hw1 u (by omega), if_neg (by omega)]; exact hnp u (by omega) (by omega)
    · rintro ok s' ⟨lab', hg', hgr, hword⟩
      refine ⟨lab', hg', hgr1.trans hgr, fun hok u hu => (hword hok u hu).trans ?_⟩
      rw [hw1 u hu]
      by_cases huv : u = v
      · rw [if_pos huv, if_neg (by omega), if_pos (by omega), huv, Nat.sub_self, zero_mul, add_zero]
      · have hp : pa + PGSIZE + (u - (v + 1)) * PGSIZE = if v ≤ u then pa + (u - v) * PGSIZE else
            pa + PGSIZE + (u - (v + 1)) * PGSIZE := by
          split
          · rw [show u - v = u - (v + 1) + 1 by omega, Nat.succ_mul, add_assoc, add_comm PGSIZE]
          · rfl
        rw [if_neg huv, hp]
        by_cases hin : v ≤ u ∧ u ≤ v + (n + 1)
        · rw [if_pos hin, if_pos (by omega), if_pos hin.1]
        · rw [if_neg hin, if_neg (by omega)]

theorem mapKernel_ends : ∀ (ks : List Kmap) (lo : Nat) (s : St) (lab : Nat → Label), Rows lo ks →
    Good L pool s lab → lab d = .dir → (∀ u, lo ≤ u → u < 1024 * 1024 → word s d u = 0) →
    Ends E (fun ok s' => ∃ lab', Good L pool s' lab' ∧ Grows d s lab s' lab' ∧
      (ok = true → ∀ u < 1024 * 1024, word s' d u = if u < lo then word s d u else kentry ks u))
      (mapKernel d ks s) := by
  intro ks
  induction ks with
  | nil =>
    intro lo s lab _ hg _ hz
    refine .ret ⟨lab, hg, .refl .., fun _ u hu => ?_⟩
    split
    · rfl
    · next h => exact hz u (not_lt.1 h) hu
  | cons k ks ih =>
    intro lo s lab ⟨v, n, hlo, hrow, hrest⟩ hg hd hz
    have htop := hrow.top
    rw [mapKernel, mappages_row hrow]
    refine (mapLoop_ends hrow.perm n v k.phys_start s lab hg hd hrow.above htop hrow.phys fun u h1 h2 => ?_).bind
      fun ok s1 ⟨lab1, hg1, hgr1, hword1⟩ => ?_
    · rw [hz u (by omega) (by omega)]; exact not_present_zero
    refine .ite (fun hok => ?_) fun _ => .ret ⟨lab1, hg1, hgr1, fun h => by cases h⟩
    have hw1 := hword1 hok
    have hd1 := hgr1.dir hd
    refine (ih (v + n + 1) s1 lab1 hrest hg1 hd1 fun u h1 h2 => ?_).post
      fun ok s' ⟨lab', hg', hgr, hword⟩ => ⟨lab', hg', hgr1.trans hgr, fun hok u hu => (hword hok u hu).trans ?_⟩
    · rw [hw1 u h2, if_neg (by omega), hz u (by omega) h2]
    · rw [hw1 u hu, kentry]
      by_cases hc : v ≤ u ∧ u ≤ v + n
      · rw [if_pos (by omega), if_pos hc, if_neg (by omega), if_pos (hrow.covers_iff.2 hc), hrow.phys_eq hc.1]
      · rw [if_neg hc, if_neg fun h => hc (hrow.covers_iff.1 h)]
        by_cases hu1 : u < lo
        · rw [if_pos (by omega), if_pos hu1]
        · rw [if_neg hu1]
          split
          · rw [hz u (by omega) hu, kentry_below hrest (by omega)]
          · rfl

variable {lab : Nat → Label}

theorem Good.base_ne (hg : Good L pool s lab) (hd : lab d ≠ .dir) (g : Nat) : (lab g).base ≠ some d := by
  intro h
  rcases Label.base_eq_some.1 h with ⟨i, hi⟩ | ⟨v, hv⟩
  · exact hd ((hg.table d i g).1 hi).1
  · exact hd ((hg.user d v g).1 hv).1

theorem gone_new (hg : Good L pool s lab) (hd : lab d = .free) : gone (update lab d .dir) d = lab := by
  funext g
  unfold gone
  by_cases hgd : g = d
  · rw [if_pos (.inl hgd), hgd, hd]
  · rw [update_of_ne hgd, if_neg]; exact fun h => h.elim hgd (hg.base_ne (by rw [hd]; decide) g)

theorem freevm_new {s1 : St} {lab1 : Nat → Label} (hg : Good L pool s lab) (hd : lab d = .free)
    (hg1 : Good L pool s1 lab1) (hk : Keeps d s (update lab d .dir) s1 lab1) :
    Ends E (fun _ s' => Good L pool s' lab ∧ ∀ g, lab g ≠ .free → s'.mem g = s.mem g) (freevm L d s1) := by
  have hd1 : lab1 d = .dir := by rw [hk.dir, update_self]
  have hgone : gone lab1 d = lab := hk.gone_eq.trans (gone_new hg hd)
  refine (freevm_ends hg1 hd1).post fun _ s' ⟨hg', hm⟩ => ⟨hgone ▸ hg', fun g hgf => ?_⟩
  have hgd : g ≠ d := fun he => hgf (he ▸ hd)
  have hlab : update lab d .dir g = lab g := update_of_ne hgd ..
  have hb := hg.base_ne (by rw [hd]; decide : lab d ≠ .dir) g
  have hl1 := hk.label g (by rw [hlab]; exact hgf) hgd (by rw [hlab]; exact hb)
  rw [hm g hgd (by rw [hl1, hlab]; exact hb), hk.mem g (by rw [hlab]; exact hgf) hgd (by rw [hlab]; exact hb)]

/-- A new directory with the kernel's pages and no others, or nothing. -/
theorem setupkvm_ends (hg : Good L pool s lab) : Ends E (fun r s' =>
    (r = none ∧ Good L pool s' lab ∧ ∀ g, lab g ≠ .free → s'.mem g = s.mem g) ∨
    ∃ d lab', r = some d ∧ lab d = .free ∧ Good L pool s' lab' ∧ Grows d s (update lab d .dir) s' lab' ∧
      ∀ u < 1024 * 1024, word s' d u = kentry (kmap L) u) (setupkvm L s) := by
  refine (kalloc_ends hg).bind ?_
  rintro r s1 ⟨hm1, hno, hsome⟩
  cases r with
  | none => exact .ret (.inl ⟨rfl, hno rfl, fun g _ => congrFun hm1 g⟩)
  | some d =>
    obtain ⟨hfree, hg1⟩ := hsome d rfl
    have hvalid := hg.valid d ((hg.inside d).1 (by rw [hfree]; decide))
    have hrows : Rows UPAGES (kmap L) := kmap_rows (L.data_le.trans_lt (hvalid.1.trans_lt hvalid.2))
    have hself : update lab d .hand d = .hand := update_self ..
    have hg2 := (hg1.fillOther (by rw [hself]; exact Label.not_meta_hand)).newDir hself fun _ => entry_filled_zero
    rw [update_idem] at hg2
    have hw : ∀ u, word (filled s1 d fun _ => 0) d u = 0 :=
      fun u => word_none (by rw [tab, entry_filled_zero, if_neg not_present_zero])
    refine Ends.bind fill_ends ?_
    rintro _ _ rfl
    refine .ite (fun h => absurd h (by decide)) fun _ => ?_
    refine (mapKernel_ends (kmap L) UPAGES _ _ hrows hg2 (update_self ..) fun u _ _ => hw u).bind ?_
    rintro ok s2 ⟨lab2, hg3, hgr, hword⟩
    have hgr' : Grows d s (update lab d .dir) s2 lab2 := by
      refine ⟨hgr.label, fun f hf hfd ht => (hgr.mem f hf hfd ht).trans ?_, hgr.fresh⟩
      exact (filled_mem_of_ne hfd).trans (congrFun hm1 f)
    refine .ite (fun hok => ?_) fun _ => ?_
    · refine .ret (.inr ⟨d, lab2, rfl, hfree, hg3, hgr', fun u hu => (hword hok u hu).trans ?_⟩)
      split
      · next h => rw [hw, kentry_below hrows h]
      · rfl
    · refine (freevm_new hg hfree hg3 (hgr'.keeps (update_self ..))).bind fun _ s3 h => ?_
      exact .ret (.inl ⟨rfl, h⟩)

end

/-! ## Enough pages -/

/-- There is a free page for every table that the directory does not have, and `more` besides; no call of `kalloc`
fails. -/
structure Room (s : St) (d more : Nat) : Prop where
  fails : s.fails = []
  valid : ∀ f ∈ s.free, f * PGSIZE < PHYSTOP
  free : d ∉ s.free
  table : ∀ i, tab s d i ≠ some d
  enough : ∃ l : List Nat, (∀ i < NPDENTRIES, tab s d i = none → i ∈ l) ∧ l.length + more ≤ s.free.length

section

variable {more t k w : Nat}

theorem room_put (h : Room s d more) (ht : t ≠ d) : Room (put s t k w) d more := by
  have htab : ∀ i, tab (put s t k w) d i = tab s d i := fun i => tab_congr (put_mem_of_ne ht.symm)
  obtain ⟨l, hl, hlen⟩ := h.enough
  exact ⟨h.fails, h.valid, h.free,
    fun i => by rw [htab]; exact h.table i, l, fun i hi hn => hl i hi (htab i ▸ hn), hlen⟩

theorem walkpgdir_room (h : Room s d more) (va : Nat) :
    Ends E (fun r s' => ∃ t, r = some (t, PTX va) ∧ t ≠ d ∧ Room s' d more ∧
    ∀ i, i ≠ PDX va → tab s' d i = tab s d i) (walkpgdir d va true s) := by
  rw [walkpgdir, get_bind]
  refine .ite (fun hp => ?_) fun hp => .ite (fun hf => by cases hf) fun _ => ?_
  · have ht : tab s d (PDX va) = some (frame (entry s d (PDX va))) := if_pos hp
    exact .ret ⟨_, rfl, fun he => h.table (PDX va) (ht.trans (congrArg some he)), h, fun _ _ => rfl⟩
  · have hi : PDX va < NPDENTRIES := Nat.mod_lt _ (by decide)
    obtain ⟨l, hl, hlen⟩ := h.enough
    have hil := hl _ hi (if_neg hp)
    obtain ⟨f, rest, hfree⟩ :=
      List.exists_cons_of_length_pos ((List.length_pos_of_mem hil).trans_le (Nat.le_of_add_right_le hlen))
    have hnf := h.free
    have hvalid := h.valid
    rw [hfree] at hnf hlen hvalid
    have hfd : f ≠ d := fun he => hnf (he ▸ List.mem_cons_self)
    have hk : kalloc s = .ok (some f, { s with free := rest, fails := s.fails.tail }) := by
      rw [kalloc, h.fails, if_neg (by simp), hfree]
    have hw := tableWord f
    rw [bind_ok hk]
    have htab : ∀ i, tab (put (filled { s with free := rest, fails := s.fails.tail } f fun _ => 0) d (PDX va)
        (f * PGSIZE ||| PTE_P ||| PTE_W ||| PTE_U)) d i = if i = PDX va then some f else tab s d i := by
      intro i
      by_cases hie : i = PDX va
      · rw [if_pos hie, hie, tab, entry_put_self (hw.2.2 (hvalid f List.mem_cons_self)), if_pos hw.1, hw.2.1]
      · rw [if_neg hie, tab, entry_put_of_ne (.inr hie)]
        exact tab_congr (s := s) (filled_mem_of_ne hfd.symm)
    refine .ret (s := put (filled { s with free := rest, fails := s.fails.tail } f fun _ => 0) d (PDX va)
      (f * PGSIZE ||| PTE_P ||| PTE_W ||| PTE_U)) ⟨f, rfl, hfd, ?_, fun i hi => (htab i).trans (if_neg hi)⟩
    refine ⟨congrArg List.tail h.fails, fun g hg => hvalid g (List.mem_cons_of_mem f hg),
      fun hm => hnf (List.mem_cons_of_mem f hm), fun i => ?_, l.erase (PDX va), fun i hi hn => ?_, ?_⟩
    · rw [htab]
      split
      · simpa using hfd
      · exact h.table i
    · rw [htab] at hn
      split at hn
      · cases hn
      · next hne => exact (List.mem_erase_of_ne hne).2 (hl i hi hn)
    · have hpos := List.length_pos_of_mem hil
      rw [List.length_cons] at hlen
      show (l.erase (PDX va)).length + more ≤ rest.length
      rw [List.length_erase_of_mem hil]
      omega

theorem mapPage_room (h : Room s d more) (perm a pa : Nat) :
    Ends (fun _ => True) (fun ok s' => ok = true ∧ Room s' d more ∧
    ∀ i, i ≠ PDX a → tab s' d i = tab s d i) (mapPage d perm a pa s) := by
  refine (walkpgdir_room h a).bind ?_
  rintro r s1 ⟨t, hr, htd, h1, htab⟩
  subst hr
  show Ends _ _ ((get >>= fun s => if present (entry s t (PTX a)) then throw .remap else _ : M Bool) s1)
  rw [get_bind]
  refine .ite (fun _ => .fail trivial) fun _ => ⟨rfl, room_put h1 htd, fun i hi => ?_⟩
  exact (tab_congr (put_mem_of_ne htd.symm)).trans (htab i hi)

theorem mapLoop_room (perm : Nat) : ∀ (n v pa : Nat) (s : St), Room s d more → UPAGES ≤ v → v + n < 1024 * 1024 →
    Ends (fun _ => True) (fun ok s' => ok = true ∧ Room s' d more ∧ ∀ i < UPAGES / 1024, tab s' d i = tab s d i)
      (mapLoop d perm n (v * PGSIZE) pa s) := by
  have hlow : ∀ {v i}, UPAGES ≤ v → v < 1024 * 1024 → i < UPAGES / 1024 → i ≠ PDX (v * PGSIZE) :=
    fun {v i} h1 h2 hi => by
    rw [PDX_page h2]; exact (hi.trans_le (Nat.div_le_div_right h1)).ne
  intro n
  induction n with
  | zero =>
    intro v pa s h hU hv
    exact (mapPage_room h perm _ pa).post fun ok s' ⟨hok, h', htab⟩ => ⟨hok, h', fun i hi => htab i (hlow hU hv hi)⟩
  | succ n ih =>
    intro v pa s h hU hv
    refine (mapPage_room h perm _ pa).bind fun ok s1 ⟨hok, h1, htab⟩ => .ite (fun _ => ?_) fun hn => (hn hok).elim
    rw [add32_next (by omega)]
    refine (ih (v + 1) _ s1 h1 (by omega) (by omega)).post fun ok s' ⟨hok, h', htab'⟩ => ⟨hok, h', fun i hi => ?_⟩
    rw [htab' i hi, htab i (hlow hU (by omega) hi)]

theorem mapKernel_room : ∀ (ks : List Kmap) (lo : Nat) (s : St), Rows lo ks → Room s d more →
    Ends (fun _ => True) (fun ok s' => ok = true ∧ Room s' d more ∧ ∀ i < UPAGES / 1024, tab s' d i = tab s d i)
      (mapKernel d ks s)
  | [], _, _, _, h => .ret ⟨rfl, h, fun _ _ => rfl⟩
  | k :: ks, lo, s, ⟨v, n, _, hrow, hrest⟩, h => by
    rw [mapKernel, mappages_row hrow]
    refine (mapLoop_room _ n v _ s h hrow.above hrow.top).bind fun ok s1 ⟨hok, h1, htab⟩ =>
      .ite (fun _ => ?_) fun hn => (hn hok).elim
    refine (mapKernel_room ks _ s1 hrest h1).post fun ok s' ⟨hok, h', htab'⟩ => ⟨hok, h', fun i hi => ?_⟩
    rw [htab' i hi, htab i hi]

/-- With a page for the directory and one for each table `setupkvm` does not fail. -/
theorem setupkvm_room {rest : List Nat} (hfails : s.fails = []) (hfree : s.free = d :: rest)
    (hvalid : ∀ f ∈ s.free, L.stop ≤ f * PGSIZE ∧ f * PGSIZE < PHYSTOP) (hnd : s.free.Nodup)
    (hlen : NPDENTRIES + more ≤ rest.length) :
    Ends (fun _ => True) (fun r s' => r = some d ∧ Room s' d more ∧ ∀ i < UPAGES / 1024, tab s' d i = none)
      (setupkvm L s) := by
  have hk : kalloc s = .ok (some d, { s with free := rest, fails := s.fails.tail }) := by
    rw [kalloc, hfails, if_neg (by simp), hfree]
  rw [setupkvm, bind_ok hk]
  refine Ends.bind fill_ends ?_
  rintro _ _ rfl
  have htab : ∀ i, tab (filled { s with free := rest, fails := s.fails.tail } d fun _ => 0) d i = none := fun i => by
    rw [tab, entry_filled_zero, if_neg not_present_zero]
  have hroom : Room (filled { s with free := rest, fails := s.fails.tail } d fun _ => 0) d more := by
    rw [hfree] at hvalid hnd
    refine ⟨congrArg List.tail hfails, fun f hf => (hvalid f (List.mem_cons_of_mem d hf)).2, (List.nodup_cons.1 hnd).1,
      fun i => by rw [htab]; simp, List.range NPDENTRIES, fun i hi _ => List.mem_range.2 hi, ?_⟩
    rwa [List.length_range]
  have hd := hvalid d (hfree ▸ List.mem_cons_self)
  have hrows : Rows UPAGES (kmap L) := kmap_rows (L.data_le.trans_lt (hd.1.trans_lt hd.2))
  refine .ite (fun _ => .fail trivial) fun _ => (mapKernel_room (kmap L) _ _ hrows hroom).bind ?_
  rintro ok s2 ⟨hok, h2, htab2⟩
  exact .ite (fun _ => .ret ⟨rfl, h2, fun i hi => (htab2 i hi).trans (htab i)⟩) fun hn => (hn hok).elim

end

end Xv6.Vm
