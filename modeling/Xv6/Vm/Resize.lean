/-
What `allocuvm`, `deallocuvm` and `growproc` do to the mappings of a directory. The loop of `deallocuvm` that
goes from table to table is compared with one that looks at every page, and the growth of a process with what
its size and its pages should be afterwards.
-/
import Xv6.Vm.Grow

namespace Xv6.Vm

open Base

/-! ## `deallocuvm`, page by page -/

/-- The loop of `deallocuvm` without the jump over a missing table. -/
def deallocEach (L : Link) (pgdir oldsz : Nat) : Nat → Nat → M Unit
  | 0, _ => throw .spin
  | n + 1, a =>
    if a < oldsz then do
      let pte ← walkpgdir pgdir a false
      match pte with
      | none => deallocEach L pgdir oldsz n (add32 a PGSIZE)
      | some (t, j) => do
        let s ← get
        if present (entry s t j) then
          if frame (entry s t j) = 0 then throw .kfree
          else do
            kfree L (frame (entry s t j))
            setEntry t j 0
            deallocEach L pgdir oldsz n (add32 a PGSIZE)
        else deallocEach L pgdir oldsz n (add32 a PGSIZE)
    else pure ()

def deallocuvmEach (L : Link) (pgdir oldsz newsz : Nat) : M Nat :=
  if oldsz ≤ newsz then pure oldsz
  else do
    deallocEach L pgdir oldsz turns (PGROUNDUP newsz)
    pure newsz

variable {L : Link} {d oldsz v : Nat} {s : St}

theorem deallocLoop_none {n : Nat} (hv : v < UPAGES) (htab : tab s d (v / 1024) = none) :
    deallocLoop L d oldsz (n + 1) (v * PGSIZE) s =
      if v * PGSIZE < oldsz then deallocLoop L d oldsz n ((v / 1024 + 1) * 1024 * PGSIZE) s else .ok ((), s) := by
  rw [deallocLoop]
  split
  · rw [bind_ok (walkpgdir_look s d (v * PGSIZE)), PDX_page (page_lt hv), htab]
    show deallocLoop L d oldsz n (add32 (sub32 (PGADDR (v / 1024 + 1) 0 0) PGSIZE) PGSIZE) s = _
    rw [next_table hv]
  · rfl

/-- Both loops, each with turns enough, do the same. -/
theorem deallocLoop_eq_each (hsz : oldsz ≤ KERNBASE) :
    ∀ (m n v : Nat) (s : St), v ≤ UPAGES → UPAGES < v + m → UPAGES < v + n →
    deallocLoop L d oldsz n (v * PGSIZE) s = deallocEach L d oldsz m (v * PGSIZE) s := by
  intro m
  induction m with
  | zero => intro n v s h1 h2; omega
  | succ m ih =>
    intro n v s hvU hm hn
    obtain ⟨n, rfl⟩ : ∃ k, n = k + 1 := ⟨n - 1, by omega⟩
    by_cases hlt : v * PGSIZE < oldsz
    · have hv := lt_upages hsz hlt
      have hv' := page_lt hv
      cases htab : tab s d (v / 1024) with
      | none =>
        have heach : deallocEach L d oldsz (m + 1) (v * PGSIZE) s = deallocEach L d oldsz m ((v + 1) * PGSIZE) s := by
          rw [deallocEach, if_pos hlt, bind_ok (walkpgdir_look s d (v * PGSIZE)), PDX_page hv', htab]
          show deallocEach L d oldsz m (add32 (v * PGSIZE) PGSIZE) s = _
          rw [add32_page hv]
        have hUP : UPAGES = 512 * 1024 := rfl
        rw [deallocLoop_none hv htab, if_pos hlt, heach]
        by_cases hnext : (v + 1) / 1024 = v / 1024
        · -- the next page has no table either: the jump from it goes to the same place
          have hv1 : v + 1 < UPAGES := by omega
          rw [← ih (n + 1) (v + 1) s hv (by omega) (by omega), deallocLoop_none hv1 (by rw [hnext, htab]), hnext]
          split
          · rfl
          · next hge =>
            obtain ⟨n, rfl⟩ : ∃ k, n = k + 1 := ⟨n - 1, by omega⟩
            rw [deallocLoop, if_neg]
            · rfl
            · intro h
              refine hge ((Nat.mul_le_mul_right _ ?_).trans_lt h)
              omega
        · rw [show (v / 1024 + 1) * 1024 = v + 1 by omega]
          exact ih n (v + 1) s hv (by omega) (by omega)
      | some t =>
        rw [deallocLoop, deallocEach, if_pos hlt, if_pos hlt, bind_ok (walkpgdir_look s d (v * PGSIZE)),
          bind_ok (walkpgdir_look s d (v * PGSIZE)), PDX_page hv', PTX_page, htab, add32_page hv]
        have hnext : deallocLoop L d oldsz n ((v + 1) * PGSIZE) = deallocEach L d oldsz m ((v + 1) * PGSIZE) :=
          funext fun s' => ih n (v + 1) s' hv (by omega) (by omega)
        rw [hnext]
        rfl
    · rw [deallocLoop, deallocEach, if_neg hlt, if_neg hlt]

theorem deallocuvm_eq_each (hsz : oldsz ≤ KERNBASE) (newsz : Nat) (s : St) :
    deallocuvm L d oldsz newsz s = deallocuvmEach L d oldsz newsz s := by
  by_cases hle : oldsz ≤ newsz
  · rw [deallocuvm, deallocuvmEach, if_pos hle, if_pos hle]
  · have hnew : newsz ≤ KERNBASE := by omega
    have hloop : deallocLoop L d oldsz turns (pgs newsz * PGSIZE) = deallocEach L d oldsz turns (pgs newsz * PGSIZE) :=
      funext fun s => deallocLoop_eq_each hsz turns turns (pgs newsz) s (pgs_le_upages hnew)
        (lt_of_lt_of_le (by decide : UPAGES < turns) le_add_self)
        (lt_of_lt_of_le (by decide : UPAGES < turns) le_add_self)
    rw [deallocuvm, deallocuvmEach, if_neg hle, if_neg hle, PGROUNDUP_eq hnew, hloop]

/-! ## Mappings -/

/-- The entry of page `v`, if it is present. -/
def umap (s : St) (d v : Nat) : Option Nat := if present (word s d v) then some (word s d v) else none

/-- Page `v` of `d` is mapped as before, with the same bytes. -/
def SamePage (s s' : St) (d v : Nat) : Prop :=
  umap s' d v = umap s d v ∧ ∀ w, umap s d v = some w → s'.mem (frame w) = s.mem (frame w)

/-- All user pages of the other directories are as before. -/
def Others (lab : Nat → Label) (s s' : St) (d : Nat) : Prop :=
  ∀ d', lab d' = .dir → d' ≠ d → ∀ v < UPAGES, SamePage s s' d' v

/-- The page at `v` begins at or above `lo`, rounded up, and below `hi`. -/
def InRange (lo hi v : Nat) : Prop := PGROUNDUP lo ≤ v * PGSIZE ∧ v * PGSIZE < hi

instance (lo hi v : Nat) : Decidable (InRange lo hi v) := inferInstanceAs (Decidable (_ ∧ _))

variable {pool : Nat → Prop} {lab : Nat → Label}

section

variable {s' : St} {lab' : Nat → Label} {w lo hi : Nat}

theorem umap_eq_some (h : umap s d v = some w) : present w ∧ word s d v = w := by
  unfold umap at h
  split at h
  · next hp =>
    cases h; exact ⟨hp, rfl⟩
  · cases h

theorem umap_eq_none : umap s d v = none ↔ ¬present (word s d v) := by
  unfold umap
  split <;> simp_all

theorem umap_congr (h : word s' d v = word s d v) : umap s' d v = umap s d v := by
  rw [umap, umap, h]

theorem user_of_umap (hg : Good L pool s lab) (hd : lab d = .dir) (hv : v < UPAGES) (h : umap s d v = some w) :
    lab (frame w) = .user d v := by
  obtain ⟨hp, rfl⟩ := umap_eq_some h
  exact (hg.user d v _).2 ⟨hd, hv, hp, rfl⟩

theorem inRange_iff (hlo : lo ≤ KERNBASE) : InRange lo hi v ↔ pgs lo ≤ v ∧ v < pgs hi := by
  rw [InRange, PGROUNDUP_eq hlo, lt_pgs_iff]
  exact and_congr_left' (Nat.mul_le_mul_right_iff (by decide))

theorem Keeps.others (h : Keeps d s lab s' lab') (hg : Good L pool s lab) (hd : lab d = .dir) : Others lab s s' d := by
  intro d' hd' hne v hv
  have hmem : ∀ {f}, (lab f).base = some d' → s'.mem f = s.mem f := by
    intro f hb
    refine h.mem f (fun he => ?_) (fun he => ?_) fun he => hne (Option.some.inj (hb.symm.trans he))
    · rw [he] at hb; cases hb
    · rw [he, hd] at hb; cases hb
  have hdir : s'.mem d' = s.mem d' := h.mem d' (by rw [hd']; decide) hne (by rw [hd']; simp [Label.base])
  have hword := hg.word_eq hd' hdir (fun f i hf => hmem (by rw [hf]; rfl)) v (page_lt hv)
  refine ⟨umap_congr hword, fun w hw => hmem ?_⟩
  rw [user_of_umap hg hd' hv hw]
  rfl

theorem Undone.samePage (h : Undone d lo hi s lab s' lab') (hg : Good L pool s lab) (hd : lab d = .dir)
    (hv : v < UPAGES) (hn : ¬(lo ≤ v ∧ v < hi)) : SamePage s s' d v :=
  ⟨umap_congr (h.same v (page_lt hv) hn), fun _ hw => h.mem _ v (user_of_umap hg hd hv hw) hn⟩

theorem Undone.umap_none (h : Undone d lo hi s lab s' lab') (hn : lo ≤ v ∧ v < hi) : umap s' d v = Option.none :=
  umap_eq_none.2 (h.none v hn.1 hn.2)

theorem Adds.samePage {perm : Nat → Nat} {bytes : Nat → Page} (h : Adds d lo hi perm bytes s lab s' lab')
    (hg : Good L pool s lab) (hd : lab d = .dir) (hv : v < UPAGES) (hn : ¬(lo ≤ v ∧ v < hi)) : SamePage s s' d v :=
  ⟨umap_congr (h.same v (page_lt hv) hn), fun _ hw => h.grows.mem_user hd (user_of_umap hg hd hv hw)⟩

theorem Adds.new_page (h : Adds d lo hi userPerm (fun _ => zeroPage) s lab s' lab') (hg : Good L pool s lab)
    (hn : lo ≤ v ∧ v < hi) :
    ∃ f ∈ s.free, umap s' d v = some (f * PGSIZE ||| (PTE_W ||| PTE_U) ||| PTE_P) ∧
      frame (f * PGSIZE ||| (PTE_W ||| PTE_U) ||| PTE_P) = f ∧ s'.mem f = zeroPage := by
  obtain ⟨f, hf, hw, hfr, hz⟩ := h.fresh v hn.1 hn.2
  rw [hw] at hfr
  refine ⟨f, (hg.free f).2 hf, ?_, hfr, hz⟩
  rw [umap, hw]
  exact if_pos (or_present _)

end

section

variable {newsz : Nat}

theorem deallocuvm_range (hg : Good L pool s lab) (hd : lab d = .dir) (hold : oldsz ≤ KERNBASE) (hlt : newsz < oldsz) :
    ∃ s', deallocuvm L d oldsz newsz s = .ok (newsz, s') ∧ Others lab s s' d ∧ ∀ v < UPAGES,
      (InRange newsz oldsz v → umap s' d v = none ∧ ∀ w, umap s d v = some w → frame w ∈ s'.free) ∧
      (¬InRange newsz oldsz v → SamePage s s' d v) := by
  obtain ⟨r, s', hs, rfl, hg', hsh⟩ := (deallocuvm_ends hg hd hold newsz).exists_ok
  rw [if_neg (not_le.2 hlt)] at hs
  have hu := hsh.undone hd (pgs_le_upages hold)
  refine ⟨s', hs, hu.keeps.others hg hd, fun v hv => ?_⟩
  rw [inRange_iff (hlt.trans_le hold).le]
  refine ⟨fun hn => ⟨hu.umap_none hn, fun w hw => (hg'.free _).2 ?_⟩, hu.samePage hg hd hv⟩
  exact freed_user (user_of_umap hg hd hv hw) hn.1 hn.2

theorem allocuvm_range (hg : Good L pool s lab) (hd : lab d = .dir) (hnew : newsz < KERNBASE) (hle : oldsz ≤ newsz)
    (hnone : ∀ v < UPAGES, PGROUNDUP oldsz ≤ v * PGSIZE → umap s d v = none) :
    ∃ r s', allocuvm L d oldsz newsz s = .ok (r, s') ∧ Others lab s s' d ∧
      ((r = newsz ∧ ∀ v < UPAGES,
        (InRange oldsz newsz v → ∃ f ∈ s.free, umap s' d v = some (f * PGSIZE ||| (PTE_W ||| PTE_U) ||| PTE_P) ∧
          frame (f * PGSIZE ||| (PTE_W ||| PTE_U) ||| PTE_P) = f ∧ s'.mem f = zeroPage) ∧
        (¬InRange oldsz newsz v → SamePage s s' d v)) ∨
      (r = 0 ∧ ∀ v < UPAGES, SamePage s s' d v)) := by
  have holdK : oldsz ≤ KERNBASE := hle.trans hnew.le
  have hnp : ∀ u, pgs oldsz ≤ u → u < pgs newsz → ¬present (word s d u) := fun u h1 h2 => by
    rw [← umap_eq_none]
    refine hnone u (h2.trans_le (pgs_le_upages hnew.le)) ?_
    rw [PGROUNDUP_eq holdK]
    exact Nat.mul_le_mul_right _ h1
  obtain ⟨r, s', hs, lab', hg', h⟩ := ((allocuvm_ends hg hd oldsz newsz).err
    fun _ ⟨_, _, u, h1, h2, h3⟩ => hnp u h1 h2 h3).exists_ok
  rcases h with ⟨-, h, -⟩ | ⟨-, h, -⟩ | ⟨-, -, ⟨h0, hu⟩ | ⟨h0, ha⟩⟩
  · omega
  · omega
  · refine ⟨r, s', hs, hu.keeps.others hg hd, .inr ⟨h0, fun v hv => ?_⟩⟩
    by_cases hn : pgs oldsz ≤ v ∧ v < pgs newsz
    · have hold : umap s d v = none := umap_eq_none.2 (hnp v hn.1 hn.2)
      exact ⟨(hu.umap_none hn).trans hold.symm, fun w hw => by rw [hold] at hw; cases hw⟩
    · exact hu.samePage hg hd hv hn
  · refine ⟨r, s', hs, (ha.grows.keeps hd).others hg hd, .inl ⟨h0, fun v hv => ?_⟩⟩
    rw [inRange_iff holdK]
    exact ⟨ha.new_page hg, ha.samePage hg hd hv⟩

/-- `deallocuvm` removes the pages of the range and no others, as a loop over every page would; `allocuvm` maps
new pages of zeros in the range and nowhere else, or leaves everything as it was. -/
theorem uvm_exact_ranges (hg : Good L pool s lab) (hd : lab d = .dir) (hold : oldsz < KERNBASE)
    (hnew : newsz < KERNBASE) :
    (newsz < oldsz → deallocuvm L d oldsz newsz s = deallocuvmEach L d oldsz newsz s ∧
      ∃ s', deallocuvm L d oldsz newsz s = .ok (newsz, s') ∧ Others lab s s' d ∧ ∀ v < UPAGES,
        (InRange newsz oldsz v → umap s' d v = none ∧ ∀ w, umap s d v = some w → frame w ∈ s'.free) ∧
        (¬InRange newsz oldsz v → SamePage s s' d v)) ∧
    (oldsz ≤ newsz → (∀ v < UPAGES, PGROUNDUP oldsz ≤ v * PGSIZE → umap s d v = none) →
      ∃ r s', allocuvm L d oldsz newsz s = .ok (r, s') ∧ Others lab s s' d ∧
        ((r = newsz ∧ ∀ v < UPAGES,
          (InRange oldsz newsz v → ∃ f ∈ s.free, umap s' d v = some (f * PGSIZE ||| (PTE_W ||| PTE_U) ||| PTE_P) ∧
            frame (f * PGSIZE ||| (PTE_W ||| PTE_U) ||| PTE_P) = f ∧ s'.mem f = zeroPage) ∧
          (¬InRange oldsz newsz v → SamePage s s' d v)) ∨
        (r = 0 ∧ ∀ v < UPAGES, SamePage s s' d v))) := by
  refine ⟨fun hlt => ⟨deallocuvm_eq_each hold.le newsz s, deallocuvm_range hg hd hold.le hlt⟩,
    fun hle hnone => allocuvm_range hg hd hnew hle hnone⟩

end

theorem onePage_umap : ∀ v < UPAGES, umap onePage 0x200 v ≠ none ↔ v * PGSIZE < PGROUNDUP PGSIZE := by
  intro v hv
  rw [PGROUNDUP_eq (by decide), Nat.mul_lt_mul_right (by decide), umap, onePage_good.2 v (page_lt hv)]
  by_cases h0 : v = 0
  · rw [h0]; decide
  · rw [if_neg h0, if_neg not_present_zero]
    exact iff_of_false (fun h => h rfl) fun h => h0 (Nat.lt_one_iff.1 h)

/-- One page more, a page of zeros, then none. -/
theorem uvm_exact_ranges_onePage :
    (∃ s', allocuvm link 0x200 PGSIZE (2 * PGSIZE) onePage = .ok (2 * PGSIZE, s') ∧
      Others onePageLabel onePage s' 0x200 ∧ SamePage onePage s' 0x200 0 ∧ ∃ f ∈ onePage.free,
        umap s' 0x200 1 = some (f * PGSIZE ||| (PTE_W ||| PTE_U) ||| PTE_P) ∧ s'.mem f = zeroPage) ∧
    ∃ s', deallocuvm link 0x200 PGSIZE 0 onePage = .ok (0, s') ∧ Others onePageLabel onePage s' 0x200 ∧
      umap s' 0x200 0 = none := by
  have hnone : ∀ v < UPAGES, PGROUNDUP PGSIZE ≤ v * PGSIZE → umap onePage 0x200 v = none := fun v hv h =>
    not_not.1 fun h0 => not_lt.2 h ((onePage_umap v hv).1 h0)
  obtain ⟨r, s', hs, ho, hr⟩ := (uvm_exact_ranges onePage_good.1 (d := 0x200) rfl (by decide) (by decide)).2
    (by decide : PGSIZE ≤ 2 * PGSIZE) hnone
  obtain ⟨-, s'', hs', ho', hr'⟩ := (uvm_exact_ranges onePage_good.1 (d := 0x200) rfl (by decide) (by decide)).1
    (by decide : 0 < PGSIZE)
  have hne : r ≠ 0 := fun h0 => by
    have hrun : (allocuvm link 0x200 PGSIZE (2 * PGSIZE) onePage).toOption.any (fun r => decide (r.1 ≠ 0)) = true := by
      decide +kernel
    rw [hs, h0] at hrun
    cases hrun
  obtain ⟨rfl, hpages⟩ := hr.resolve_right fun h => hne h.1
  obtain ⟨f, hf, hmap, -, hz⟩ := (hpages 1 (by decide)).1 (by decide)
  exact ⟨⟨s', hs, ho, (hpages 0 (by decide)).2 (by decide), f, hf, hmap, hz⟩, s'', hs', ho',
    ((hr' 0 (by decide)).1 (by decide)).1⟩

/-! ## `growproc` -/

/-- For a process with this directory and this size: whether 0 was returned, and the new size. -/
def growproc (L : Link) (pgdir sz : Nat) (n : Int) : M (Bool × Nat) :=
  let newsz := ((sz + n) % 2 ^ 32).toNat
  if 0 < n then do
    let r ← allocuvm L pgdir sz newsz
    if r = 0 then pure (false, sz) else pure (true, r)
  else if n < 0 then do
    let r ← deallocuvm L pgdir sz newsz
    if r = 0 then pure (false, sz) else pure (true, r)
  else pure (true, sz)

/-- With success the size is `sz + n`, the pages below it are there and no others, those that stay are unchanged
and the new ones zero; with failure nothing changed. -/
def ExactOrAtomic (s : St) (d sz : Nat) (n : Int) (r : Bool × Nat) (s' : St) : Prop :=
  if r.1 then (r.2 : Int) = sz + n ∧ r.2 < KERNBASE ∧ ∀ v < UPAGES,
    (umap s' d v ≠ none ↔ v * PGSIZE < PGROUNDUP r.2) ∧
    (v * PGSIZE < PGROUNDUP sz → v * PGSIZE < PGROUNDUP r.2 → SamePage s s' d v) ∧
    (PGROUNDUP sz ≤ v * PGSIZE → ∀ w, umap s' d v = some w → s'.mem (frame w) = zeroPage)
  else r.2 = sz ∧ ∀ v < UPAGES, SamePage s s' d v

section

variable {sz : Nat} {n : Int}

theorem SamePage.refl (s : St) (d v : Nat) : SamePage s s d v := ⟨rfl, fun _ _ => rfl⟩

theorem lt_PGROUNDUP (hsz : sz ≤ KERNBASE) : v * PGSIZE < PGROUNDUP sz ↔ v < pgs sz := by
  rw [PGROUNDUP_eq hsz]; exact Nat.mul_lt_mul_right (by decide)

theorem pgs_le_pgs {a b : Nat} (h : a ≤ b) : pgs a ≤ pgs b := Nat.div_le_div_right (Nat.add_le_add_right h _)

section

variable (hg : Good L pool s lab) (hd : lab d = .dir) (hsz : sz < KERNBASE)
  (hpages : ∀ v < UPAGES, umap s d v ≠ none ↔ v * PGSIZE < PGROUNDUP sz)

include hsz hpages

theorem exact_of_pages {s' : St} {N : Nat} (hN : (N : Int) = sz + n) (hK : N < KERNBASE)
    (hgone : ∀ v < UPAGES, pgs N ≤ v ∧ v < pgs sz → umap s' d v = none)
    (hnew : ∀ v < UPAGES, pgs sz ≤ v ∧ v < pgs N → ∃ w, umap s' d v = some w ∧ s'.mem (frame w) = zeroPage)
    (hsame : ∀ v < UPAGES, ¬(pgs N ≤ v ∧ v < pgs sz) → ¬(pgs sz ≤ v ∧ v < pgs N) → SamePage s s' d v) :
    ExactOrAtomic s d sz n (true, N) s' := by
  refine ⟨hN, hK, fun v hv => ?_⟩
  have hp := hpages v hv
  rw [lt_PGROUNDUP hsz.le] at hp
  rw [lt_PGROUNDUP hsz.le, lt_PGROUNDUP hK.le, PGROUNDUP_eq hsz.le, Nat.mul_le_mul_right_iff (by decide)]
  by_cases h1 : pgs N ≤ v ∧ v < pgs sz
  · rw [hgone v hv h1]
    exact ⟨iff_of_false (by simp) (not_lt.2 h1.1), fun _ h2 => absurd h1.1 (not_le.2 h2), fun _ w hw => by cases hw⟩
  by_cases h2 : pgs sz ≤ v ∧ v < pgs N
  · obtain ⟨w, hu, hz⟩ := hnew v hv h2
    rw [hu]
    exact ⟨iff_of_true (by simp) h2.2, fun h => absurd h2.1 (not_le.2 h), fun _ w' hw => by cases hw; exact hz⟩
  · have h := hsame v hv h1 h2
    rw [h.1, hp]
    refine ⟨by omega, fun _ _ => h, fun h3 w hw => ?_⟩
    exact absurd (hp.1 (by rw [hw]; simp)) (not_lt.2 h3)

include hg hd

theorem growproc_grow (hn : n < 2 ^ 31) (hpos : 0 < n) :
    Ends (fun _ => False) (ExactOrAtomic s d sz n) (growproc L d sz n s) := by
  obtain ⟨N, hN, hNn⟩ : ∃ N : Nat, ((sz + n) % 2 ^ 32).toNat = N ∧ (N : Int) = sz + n := by
    unfold KERNBASE at hsz; exact ⟨_, rfl, by omega⟩
  rw [growproc, hN, if_pos hpos]
  by_cases hK : KERNBASE ≤ N
  · have hs : allocuvm L d sz N s = .ok (0, s) := by
      rw [allocuvm, if_pos hK]; rfl
    rw [bind_ok hs, if_pos rfl]
    exact .ret ⟨rfl, fun v _ => .refl ..⟩
  · have hKN : N < KERNBASE := not_le.1 hK
    have hszN : sz ≤ N := by omega
    have hle := pgs_le_pgs hszN
    have hnone : ∀ v < UPAGES, PGROUNDUP sz ≤ v * PGSIZE → umap s d v = none := fun v hv h =>
      not_not.1 fun h0 => not_lt.2 h ((hpages v hv).1 h0)
    obtain ⟨r, s', hs, -, h⟩ := allocuvm_range hg hd hKN hszN hnone
    rw [bind_ok hs]
    rcases h with ⟨rfl, h⟩ | ⟨rfl, h⟩
    · rw [if_neg (by omega)]
      simp only [inRange_iff hsz.le] at h
      refine .ret (exact_of_pages hsz hpages hNn hKN (fun v _ hr => by omega) (fun v hv hr => ?_)
        fun v hv _ hr => (h v hv).2 hr)
      obtain ⟨f, -, hu, hfr, hz⟩ := (h v hv).1 hr
      exact ⟨_, hu, by rw [hfr, hz]⟩
    · rw [if_pos rfl]; exact .ret ⟨rfl, h⟩

theorem growproc_shrink (hneg : n < 0) (hpos : 0 < sz + n) :
    Ends (fun _ => False) (ExactOrAtomic s d sz n) (growproc L d sz n s) := by
  obtain ⟨N, hN, hNn⟩ : ∃ N : Nat, ((sz + n) % 2 ^ 32).toNat = N ∧ (N : Int) = sz + n := by
    unfold KERNBASE at hsz; exact ⟨_, rfl, by omega⟩
  have hlt : N < sz := by omega
  have hle := pgs_le_pgs hlt.le
  have hKN : N ≤ KERNBASE := (hlt.trans hsz).le
  obtain ⟨s', hs, -, h⟩ := deallocuvm_range hg hd hsz.le hlt
  rw [growproc, hN, if_neg (by omega), if_pos hneg, bind_ok hs, if_neg (by omega)]
  simp only [inRange_iff hKN] at h
  exact .ret (exact_of_pages hsz hpages hNn (hlt.trans hsz) (fun v hv hr => ((h v hv).1 hr).1) (fun v _ hr => by omega)
    fun v hv hr _ => (h v hv).2 hr)

/-- To nothing, or to less: the call fails with all pages gone, or succeeds without a change. -/
theorem growproc_below (hn : -2 ^ 31 ≤ n) (hsz0 : 0 < sz) (hle : sz + n ≤ 0) :
    ¬Ends (fun _ => False) (ExactOrAtomic s d sz n) (growproc L d sz n s) := by
  intro h
  by_cases h0 : sz + n = 0
  · have hpg : 0 < pgs sz := lt_pgs_iff.2 (by omega)
    obtain ⟨s', hs, -, hr⟩ := deallocuvm_range hg hd hsz.le hsz0
    rw [growproc, h0, if_neg (by omega), if_pos (by omega), show (0 % 2 ^ 32 : Int).toNat = 0 from rfl,
      bind_ok hs, if_pos rfl] at h
    have hsame := (h.2 0 (by decide)).1
    rw [((hr 0 (by decide)).1 ((inRange_iff zero_le).2 ⟨le_rfl, hpg⟩)).1] at hsame
    refine (hpages 0 (by decide)).2 ?_ hsame.symm
    rwa [lt_PGROUNDUP hsz.le]
  · have hge : sz ≤ ((sz + n) % 2 ^ 32).toNat := by
      unfold KERNBASE at hsz; omega
    have hs : deallocuvm L d sz ((sz + n) % 2 ^ 32).toNat s = .ok (sz, s) := by
      rw [deallocuvm, if_pos hge]; rfl
    rw [growproc, if_neg (by omega), if_pos (by omega), bind_ok hs, if_neg (by omega)] at h
    have hsize := h.1
    omega

end

/-- `growproc` does what it should exactly when it is not asked for a size of 0 or less by a process that has
some memory. -/
theorem growproc_exact_iff (hg : Good L pool s lab) (hd : lab d = .dir) (hsz : sz < KERNBASE)
    (hpages : ∀ v < UPAGES, umap s d v ≠ none ↔ v * PGSIZE < PGROUNDUP sz) (hn : -2 ^ 31 ≤ n ∧ n < 2 ^ 31) :
    Ends (fun _ => False) (ExactOrAtomic s d sz n) (growproc L d sz n s) ↔ 0 ≤ n ∨ 0 < sz + n ∨ sz = 0 := by
  constructor
  · intro h
    by_contra hc
    exact growproc_below hg hd hsz hpages hn.1 (by omega) (by omega) h
  · intro h
    rcases Int.lt_trichotomy n 0 with hneg | rfl | hpos
    · by_cases hpos : 0 < sz + n
      · exact growproc_shrink hg hd hsz hpages hneg hpos
      · -- the size is 0 already: the call fails and changes nothing
        have hs : deallocuvm L d sz ((sz + n) % 2 ^ 32).toNat s = .ok (sz, s) := by
          rw [deallocuvm, if_pos (by omega)]; rfl
        rw [growproc, if_neg (by omega), if_pos hneg, bind_ok hs, if_pos (by omega)]
        exact .ret ⟨rfl, fun v _ => .refl ..⟩
    · rw [growproc, if_neg (by omega), if_neg (by omega)]
      refine .ret ⟨by omega, hsz, fun v hv => ⟨hpages v hv, fun _ _ => .refl .., fun h1 w hw => ?_⟩⟩
      exact absurd ((hpages v hv).1 (by rw [hw]; simp)) (not_lt.2 h1)
    · exact growproc_grow hg hd hsz hpages hn.2 hpos

end

theorem growproc_exact_onePage :
    Ends (fun _ => False) (ExactOrAtomic onePage 0x200 PGSIZE 5000) (growproc link 0x200 PGSIZE 5000 onePage) :=
  (growproc_exact_iff onePage_good.1 rfl (by decide) onePage_umap (by decide)).2 (.inl (by decide))

/-- A process of one page that gives it back fails, without its page; one that gives back two succeeds, with the
size it had. -/
theorem growproc_minus_all :
    ¬Ends (fun _ => False) (ExactOrAtomic onePage 0x200 PGSIZE (-4096)) (growproc link 0x200 PGSIZE (-4096) onePage) ∧
    ¬Ends (fun _ => False) (ExactOrAtomic onePage 0x200 PGSIZE (-8192)) (growproc link 0x200 PGSIZE (-8192) onePage) :=
  ⟨growproc_below onePage_good.1 rfl (by decide) onePage_umap (by decide) (by decide) (by decide),
    growproc_below onePage_good.1 rfl (by decide) onePage_umap (by decide) (by decide) (by decide)⟩

end Xv6.Vm
