/-
What the functions of `vm.c` do, in terms of labels. A function that works on the directory `d` leaves the
pages of everyone else as they are: `Keeps` says so, and that pages it takes or gives back come from and go to
the free list; `Grows` says more, that nothing of `d` is lost either. Every function is proved once, with the
errors it may end in.
-/
import Xv6.Vm.Own

namespace Xv6.Vm

open Base Function

/-! ## What is kept -/

/-- Only pages of the directory `d` and free pages change. -/
structure Keeps (d : Nat) (s : St) (lab : Nat → Label) (s' : St) (lab' : Nat → Label) : Prop where
  dir : lab' d = lab d
  label : ∀ f, lab f ≠ .free → f ≠ d → (lab f).base ≠ some d → lab' f = lab f
  mem : ∀ f, lab f ≠ .free → f ≠ d → (lab f).base ≠ some d → s'.mem f = s.mem f
  moved : ∀ f, f ≠ d → lab f = .free ∨ (lab f).base = some d → lab' f = .free ∨ (lab' f).base = some d

/-- Only tables of the directory `d` change, and free pages become its own. -/
structure Grows (d : Nat) (s : St) (lab : Nat → Label) (s' : St) (lab' : Nat → Label) : Prop where
  label : ∀ f, lab f ≠ .free → lab' f = lab f
  mem : ∀ f, lab f ≠ .free → f ≠ d → (∀ i, lab f ≠ .table d i) → s'.mem f = s.mem f
  fresh : ∀ f, lab f = .free → lab' f = .free ∨ (lab' f).base = some d

variable {d : Nat} {s s' : St} {lab lab' : Nat → Label}

section

variable {s'' : St} {lab'' : Nat → Label}

theorem Grows.dir (h : Grows d s lab s' lab') {p : Nat} (hp : lab p = .dir) : lab' p = .dir :=
  (h.label p (by rw [hp]; decide)).trans hp

theorem Keeps.refl (d : Nat) (s : St) (lab : Nat → Label) : Keeps d s lab s lab :=
  ⟨rfl, fun _ _ _ _ => rfl, fun _ _ _ _ => rfl, fun _ _ h => h⟩

theorem Keeps.trans (h1 : Keeps d s lab s' lab') (h2 : Keeps d s' lab' s'' lab'') : Keeps d s lab s'' lab'' := by
  refine ⟨h2.dir.trans h1.dir, fun f hf hd hb => ?_, fun f hf hd hb => ?_, fun f hd hf => ?_⟩
  · have hl := h1.label f hf hd hb; rw [h2.label f (hl ▸ hf) hd (hl ▸ hb), hl]
  · have hl := h1.label f hf hd hb; rw [h2.mem f (hl ▸ hf) hd (hl ▸ hb), h1.mem f hf hd hb]
  · exact h2.moved f hd (h1.moved f hd hf)

theorem Grows.refl (d : Nat) (s : St) (lab : Nat → Label) : Grows d s lab s lab :=
  ⟨fun _ _ => rfl, fun _ _ _ _ => rfl, fun _ h => .inl h⟩

theorem Grows.trans (h1 : Grows d s lab s' lab') (h2 : Grows d s' lab' s'' lab'') : Grows d s lab s'' lab'' := by
  refine ⟨fun f hf => ?_, fun f hf hd ht => ?_, fun f hf => ?_⟩
  · have hl := h1.label f hf; rw [h2.label f (hl ▸ hf), hl]
  · have hl := h1.label f hf; rw [h2.mem f (hl ▸ hf) hd (hl ▸ ht), h1.mem f hf hd ht]
  · rcases h1.fresh f hf with h | h
    · exact h2.fresh f h
    · have hne : lab' f ≠ .free := fun he => by
        rw [he] at h; cases h
      exact .inr (by rw [h2.label f hne, h])

theorem Grows.keeps (h : Grows d s lab s' lab') (hd : lab d = .dir) : Keeps d s lab s' lab' := by
  refine ⟨h.label d (by rw [hd]; decide), fun f hf _ _ => h.label f hf, fun f hf hne hb => ?_, fun f hne hf => ?_⟩
  · exact h.mem f hf hne fun i hi => hb (by rw [hi]; rfl)
  · rcases hf with hf | hf
    · exact h.fresh f hf
    · have hnf : lab f ≠ .free := fun he => by
        rw [he] at hf; cases hf
      exact .inr (by rw [h.label f hnf, hf])

end

/-- The labels after all of directory `d` is freed. -/
def gone (lab : Nat → Label) (d : Nat) : Nat → Label := fun f => if f = d ∨ (lab f).base = some d then .free else lab f

theorem Keeps.gone_eq (h : Keeps d s lab s' lab') : gone lab' d = gone lab d := by
  funext f
  unfold gone
  by_cases hd : f = d
  · rw [if_pos (.inl hd), if_pos (.inl hd)]
  by_cases hb : lab f = .free ∨ (lab f).base = some d
  · have hleft : (if f = d ∨ (lab f).base = some d then Label.free else lab f) = .free := by
      split
      · rfl
      · next hno => exact hb.resolve_right fun h => hno (.inr h)
    rw [hleft]
    split
    · rfl
    · next hno => exact (h.moved f hd hb).resolve_right fun h => hno (.inr h)
  · push Not at hb
    rw [h.label f hb.1 hd hb.2]

/-! ## `kalloc` and `kfree` -/

variable {s1 : St}

section

variable {L : Link} {pool : Nat → Prop} {f v : Nat} {E : Panic → Prop}

theorem kalloc_ends (hg : Good L pool s lab) : Ends E (fun r s' => s'.mem = s.mem ∧ (r = none → Good L pool s' lab) ∧
    ∀ f, r = some f → lab f = .free ∧ Good L pool s' (update lab f .hand)) (kalloc s) := by
  unfold kalloc
  split
  · exact ⟨rfl, fun _ => hg.of_mem rfl fun _ _ => rfl, fun f hf => by cases hf⟩
  · split
    · exact ⟨rfl, fun _ => hg.of_mem rfl fun _ _ => rfl, fun f hf => by cases hf⟩
    · next r rest hs =>
      have hnd := hg.nodup
      have hfree := hg.free
      rw [hs] at hnd hfree
      refine ⟨rfl, (fun h => by cases h), fun f hf => ?_⟩
      obtain rfl := Option.some.inj hf
      have hl : lab r = .free := (hfree r).1 List.mem_cons_self
      refine ⟨hl, hg.relabel (.inl hl) (.inr rfl) (fun _ _ => rfl) (List.nodup_cons.1 hnd).2 fun g => ?_⟩
      by_cases he : g = r
      · rw [he, update_self]; exact iff_of_false (List.nodup_cons.1 hnd).1 (by decide)
      · rw [update_of_ne he, ← hfree]
        exact ⟨List.mem_cons_of_mem r, fun h => (List.mem_cons.1 h).resolve_left he⟩

theorem kfree_ends (hg : Good L pool s lab) (hf : lab f = .hand) :
    Ends E (fun _ s' => (∀ g, g ≠ f → s'.mem g = s.mem g) ∧
    Good L pool s' (update lab f .free)) (kfree L f s) := by
  have hv := hg.valid f ((hg.inside f).1 (by rw [hf]; decide))
  have hnf : f ∉ s.free := fun h => by
    rw [hg.free, hf] at h; cases h
  rw [kfree, if_neg (by omega)]
  have hmem : ∀ g, g ≠ f → update s.mem f (junk s.free) g = s.mem g := fun g hne => update_of_ne hne ..
  refine ⟨hmem, hg.relabel (.inr hf) (.inl rfl) (fun g hm => hmem g fun he => ?_) (List.nodup_cons.2 ⟨hnf, hg.nodup⟩)
    (hg.free_cons f)⟩
  rw [he, hf] at hm
  rcases hm with h | ⟨_, _, h⟩ <;> cases h

/-! ## `walkpgdir` -/

theorem walkpgdir_look (s : St) (d va : Nat) :
    walkpgdir d va false s = .ok ((tab s d (PDX va)).map fun t => (t, PTX va), s) := by
  show (if present (entry s d (PDX va)) then pure (some (frame (entry s d (PDX va)), PTX va))
    else pure none : M _) s = _
  rw [tab]
  split <;> rfl

theorem tableWord (t : Nat) : present (t * PGSIZE ||| PTE_P ||| PTE_W ||| PTE_U) ∧
    frame (t * PGSIZE ||| PTE_P ||| PTE_W ||| PTE_U) = t ∧
    (t * PGSIZE < PHYSTOP → t * PGSIZE ||| PTE_P ||| PTE_W ||| PTE_U < 2 ^ 32) := by
  have heq : t * PGSIZE ||| PTE_P ||| PTE_W ||| PTE_U = t * PGSIZE ||| (PTE_W ||| PTE_U) ||| PTE_P := by
    rw [Nat.or_assoc, Nat.or_assoc, Nat.or_assoc]; rfl
  rw [heq]
  refine ⟨or_present _, ?_, fun h => or_lt (h.trans (by decide)) (by decide)⟩
  rw [frame_or (by decide)]
  exact Nat.mul_div_cancel t (by decide)

theorem ne_of_free (hd : lab d = .dir) (hfree : lab f = .free) : d ≠ f := fun he => by
  rw [he, hfree] at hd; cases hd

/-- With `alloc`, the table is there afterwards, or `kalloc` failed and nothing changed. -/
theorem walkpgdir_ends (hg : Good L pool s lab) (hd : lab d = .dir) (va : Nat) : Ends E (fun r s' =>
    (r = none ∧ s'.mem = s.mem ∧ Good L pool s' lab) ∨
    ∃ t lab', r = some (t, PTX va) ∧ Good L pool s' lab' ∧ Grows d s lab s' lab' ∧ tab s' d (PDX va) = some t ∧
      ∀ u < 1024 * 1024, word s' d u = word s d u) (walkpgdir d va true s) := by
  have hi : PDX va < NPDENTRIES := Nat.mod_lt _ (by decide)
  rw [walkpgdir, get_bind]
  refine .ite (fun hp => ?_) fun hp => .ite (fun h => by cases h) fun _ => ?_
  · refine .ret (.inr ⟨frame (entry s d (PDX va)), lab, rfl, hg, .refl .., ?_, fun _ _ => rfl⟩)
    rw [tab, if_pos hp]
  · have hnone : tab s d (PDX va) = none := by rw [tab, if_neg hp]
    refine (kalloc_ends hg).bind ?_
    rintro r s1 ⟨hm1, hno, hsome⟩
    cases r with
    | none => exact .ret (.inl ⟨rfl, hm1, hno rfl⟩)
    | some t =>
      obtain ⟨hfree, hg1⟩ := hsome t rfl
      have hlt := hg.valid t ((hg.inside t).1 (by rw [hfree]; decide))
      have hne := ne_of_free hd hfree
      have hd1 : update lab t .hand d = .dir := by rw [update_of_ne hne, hd]
      have hself : update lab t .hand t = .hand := update_self ..
      have hm : ¬(update lab t .hand t).Meta := by rw [hself]; exact Label.not_meta_hand
      have hg2 : Good L pool (filled s1 t fun _ => 0) _ := hg1.fillOther hm
      have hview := hg1.views_fillOther (b := fun _ => 0) hm hd1
      have hw := tableWord t
      have hz : ∀ k, entry (filled s1 t fun _ => 0) t k = 0 := fun _ => entry_filled_zero
      have hnone2 : tab (filled s1 t fun _ => 0) d (PDX va) = none := by
        rw [hview.1, tab_congr (congrFun hm1 d), hnone]
      have hput := hg2.put_dir hd1 hnone2 hz hm hw.1 hw.2.1 (hw.2.2 hlt.2) hd1
      refine .inr ⟨t, _, rfl, hg2.newTable hd1 hi hnone2 hself hz hw.1 hw.2.1 (hw.2.2 hlt.2), ?_, ?_, ?_⟩
      · refine ⟨fun f hf => ?_, fun f hf hfd _ => ?_, fun f hf => ?_⟩
        · have hft : f ≠ t := fun he => hf (he ▸ hfree)
          rw [update_of_ne hft, update_of_ne hft]
        · have hft : f ≠ t := fun he => hf (he ▸ hfree)
          exact (put_mem_of_ne hfd).trans ((filled_mem_of_ne hft).trans (congrFun hm1 f))
        · by_cases hft : f = t
          · rw [hft, update_self]; exact .inr rfl
          · rw [update_of_ne hft, update_of_ne hft]; exact .inl hf
      · exact (hput.1 (PDX va)).trans (if_pos ⟨rfl, rfl⟩)
      · intro u hu
        have hs1 : word s1 d u = word s d u := word_congr (congrFun hm1 d) fun t' _ => congrFun hm1 t'
        exact (hput.2 u hu).trans ((hview.2 u hu).trans hs1)

/-! ## `mappages` -/

theorem PDX_page (hv : v < 1024 * 1024) : PDX (v * PGSIZE) = v / 1024 := by
  unfold PDX PGSIZE; omega

theorem PTX_page (v : Nat) : PTX (v * PGSIZE) = v % 1024 := by
  unfold PTX PGSIZE; omega

/-- One turn of the loop: the entry is set behind a table that may be new. -/
theorem mapPage_ends (hg : Good L pool s lab) (hd : lab d = .dir) (hv : v < 1024 * 1024) (perm pa : Nat) :
    Ends (fun e => e = .remap ∧ present (word s d v)) (fun ok s' =>
      (ok = false ∧ s'.mem = s.mem ∧ Good L pool s' lab) ∨
      (ok = true ∧ ¬present (word s d v) ∧ ∃ s1 lab1 t, Good L pool s1 lab1 ∧ Grows d s lab s1 lab1 ∧
        tab s1 d (v / 1024) = some t ∧ (∀ u < 1024 * 1024, word s1 d u = word s d u) ∧
        s' = put s1 t (v % 1024) (pa ||| perm ||| PTE_P))) (mapPage d perm (v * PGSIZE) pa s) := by
  refine (walkpgdir_ends hg hd (v * PGSIZE)).bind fun r s1 hr => ?_
  rcases hr with ⟨rfl, hm, hg1⟩ | ⟨t, lab1, rfl, hg1, hgr, htab, hword⟩
  · exact .ret (.inl ⟨rfl, hm, hg1⟩)
  · rw [PDX_page hv] at htab
    have hw : entry s1 t (PTX (v * PGSIZE)) = word s d v := by
      rw [PTX_page, ← word_some htab, hword v hv]
    show Ends _ _ ((get >>= fun s => if present (entry s t (PTX (v * PGSIZE))) then throw .remap else _ : M Bool) s1)
    rw [get_bind]
    refine .ite (fun hp => .fail ⟨rfl, hw ▸ hp⟩) fun hp => ?_
    refine .inr ⟨rfl, hw ▸ hp, s1, lab1, t, hg1, hgr, htab, hword, ?_⟩
    rw [← PTX_page]
    rfl

theorem word_put_page {lab1 : Nat → Label} {t w : Nat} (hg : Good L pool s1 lab1) (hd : lab1 d = .dir)
    (hv : v < 1024 * 1024) (ht : tab s1 d (v / 1024) = some t) (hw : w < 2 ^ 32)
    (hword : ∀ u < 1024 * 1024, word s1 d u = word s d u) :
    ∀ u < 1024 * 1024, word (put s1 t (v % 1024) w) d u = if u = v then w else word s d u := by
  intro u hu
  rw [(hg.put_table hd hv ht hw hd).2 u hu, hword u hu]
  simp only [true_and]

theorem mapPage_kernel (hg : Good L pool s lab) (hd : lab d = .dir) (hv : v < 1024 * 1024) (hU : UPAGES ≤ v)
    {perm pa : Nat} (hperm : perm < PGSIZE) (hpa : pa < 2 ^ 32) :
    Ends (fun e => e = .remap ∧ present (word s d v)) (fun ok s' =>
      ∃ lab', Good L pool s' lab' ∧ Grows d s lab s' lab' ∧
        (ok = true → ∀ u < 1024 * 1024, word s' d u = if u = v then pa ||| perm ||| PTE_P else word s d u))
      (mapPage d perm (v * PGSIZE) pa s) := by
  refine (mapPage_ends hg hd hv perm pa).post fun ok s' h => ?_
  rcases h with ⟨rfl, hm, hg1⟩ | ⟨rfl, -, s1, lab1, t, hg1, hgr, ht, hword, rfl⟩
  · exact ⟨lab, hg1, ⟨fun _ _ => rfl, fun f _ _ _ => congrFun hm f, fun _ h => .inl h⟩, fun h => by cases h⟩
  · have hd1 := hgr.dir hd
    have hl := (hg1.table d (v / 1024) t).2 ⟨hd1, Nat.div_lt_of_lt_mul hv, ht⟩
    have hw := or_lt hpa hperm
    refine ⟨lab1, hg1.setWord hd1 hv ht hw (.inl hU), ?_, fun _ => word_put_page hg1 hd1 hv ht hw hword⟩
    refine ⟨hgr.label, fun f hf hfd hft => ?_, hgr.fresh⟩
    rw [put_mem_of_ne, hgr.mem f hf hfd hft]
    rintro rfl
    rw [hgr.label f hf] at hl
    exact hft _ hl

theorem mappages_page (hv : v < 1024 * 1024) (perm pa : Nat) :
    mappages d (v * PGSIZE) PGSIZE pa perm = mapPage d perm (v * PGSIZE) pa := by
  have h1 : PGROUNDDOWN (v * PGSIZE) = v * PGSIZE := by
    unfold PGROUNDDOWN PGSIZE; omega
  have h2 : PGROUNDDOWN (sub32 (add32 (v * PGSIZE) PGSIZE) 1) = v * PGSIZE := by
    unfold PGROUNDDOWN sub32 add32 PGSIZE; omega
  have h3 : sub32 (v * PGSIZE) (v * PGSIZE) / PGSIZE = 0 := by
    unfold sub32 PGSIZE; omega
  rw [mappages, h1, h2, h3, mapLoop]

/-- A page taken from the free list, with the bytes `b`, is mapped in the user part. Behind it there is the
kernel's part, where a page is mapped already. -/
theorem mapNew_ends {perm : Nat} (hg : Good L pool s lab) (hd : lab d = .dir) (hv' : v < 1024 * 1024)
    (hU : v < UPAGES ∨ present (word s d v)) (hfree : lab f = .free) (hm1 : s1.mem = s.mem)
    (hg1 : Good L pool s1 (update lab f .hand)) (hperm : perm < PGSIZE) (b : Page) :
    Ends (fun e => e = .remap ∧ present (word s d v)) (fun ok s' =>
      (ok = false ∧ (∀ g, g ≠ f → s'.mem g = s.mem g) ∧ Good L pool s' (update lab f .hand)) ∨
      (ok = true ∧ ¬present (word s d v) ∧ ∃ lab', Good L pool s' lab' ∧ Grows d s lab s' lab' ∧ s'.mem f = b ∧
        ∀ u < 1024 * 1024, word s' d u = if u = v then f * PGSIZE ||| perm ||| PTE_P else word s d u))
      (mappages d (v * PGSIZE) PGSIZE (f * PGSIZE) perm (filled s1 f b)) := by
  have hne := ne_of_free hd hfree
  have hd1 : update lab f .hand d = .dir := by rw [update_of_ne hne, hd]
  have hself : update lab f .hand f = .hand := update_self ..
  have hm : ¬(update lab f .hand f).Meta := by rw [hself]; exact Label.not_meta_hand
  have hg2 : Good L pool (filled s1 f b) _ := hg1.fillOther hm
  have hsame : ∀ u < 1024 * 1024, word (filled s1 f b) d u = word s d u := fun u hu =>
    ((hg1.views_fillOther hm hd1).2 u hu).trans (word_congr (congrFun hm1 d) fun t' _ => congrFun hm1 t')
  have hout : ∀ g, g ≠ f → (filled s1 f b).mem g = s.mem g := fun g hgf => (filled_mem_of_ne hgf).trans (congrFun hm1 g)
  rw [mappages_page hv']
  refine (mapPage_ends hg2 hd1 hv' perm (f * PGSIZE)).mono (fun _ h => hsame v hv' ▸ h) fun ok s' h => ?_
  rcases h with ⟨rfl, hm, hg3⟩ | ⟨rfl, hnp, s3, lab3, t, hg3, hgr, ht, hword, rfl⟩
  · exact .inl ⟨rfl, fun g hgf => (congrFun hm g).trans (hout g hgf), hg3⟩
  · have hv := hU.resolve_right (hsame v hv' ▸ hnp)
    have hvalid := (hg.valid f ((hg.inside f).1 (by rw [hfree]; decide))).2
    have hw : f * PGSIZE ||| perm ||| PTE_P < 2 ^ 32 := or_lt (hvalid.trans (by decide)) hperm
    have hfr : frame (f * PGSIZE ||| perm ||| PTE_P) = f := (frame_or hperm).trans (Nat.mul_div_cancel f (by decide))
    have hd3 := hgr.dir hd1
    have hf3 : lab3 f = .hand := by rw [hgr.label f (by rw [hself]; decide), hself]
    have hl := (hg3.table d (v / 1024) t).2 ⟨hd3, Nat.div_lt_of_lt_mul hv', ht⟩
    have hft : f ≠ t := fun he => by
      rw [← he, hf3] at hl; cases hl
    have hnp3 : ¬present (word s3 d v) := hword v hv' ▸ hnp
    refine .inr ⟨rfl, hsame v hv' ▸ hnp, update lab3 f (.user d v),
      hg3.mapUser hd3 hv ht hnp3 hf3 (or_present _) hfr hw, ?_, ?_, ?_⟩
    · refine ⟨fun g hgn => ?_, fun g hgn hgd hgt => ?_, fun g hgf => ?_⟩
      · have hgf : g ≠ f := fun he => hgn (he ▸ hfree)
        have hlab : update lab f .hand g = lab g := update_of_ne hgf ..
        rw [update_of_ne hgf, hgr.label g (by rw [hlab]; exact hgn), hlab]
      · have hgf : g ≠ f := fun he => hgn (he ▸ hfree)
        have hlab : update lab f .hand g = lab g := update_of_ne hgf ..
        rw [put_mem_of_ne, hgr.mem g (by rw [hlab]; exact hgn) hgd (by rw [hlab]; exact hgt), hout g hgf]
        rintro rfl
        rw [hgr.label g (by rw [hlab]; exact hgn), hlab] at hl
        exact hgt _ hl
      · by_cases he : g = f
        · rw [he, update_self]; exact .inr rfl
        · rw [update_of_ne he]; exact hgr.fresh g (by rw [update_of_ne he]; exact hgf)
    · rw [put_mem_of_ne hft, hgr.mem f (by rw [hself]; decide) hne.symm (fun i hi => by rw [hself] at hi; cases hi)]
      exact filled_mem_self
    · intro u hu; rw [word_put_page hg3 hd3 hv' ht hw hword u hu, hsame u hu]

end

end Xv6.Vm
