/-
The functions that make, grow, shrink, copy and free address spaces. Shrinking gives back exactly the pages it
is asked for, freeing gives back everything, and where a page is missing on the way the functions undo what
they did.
-/
import Xv6.Vm.Spec

namespace Xv6.Vm

open Base Function

/-! ## `deallocuvm` -/

/-- The labels after the user pages from `lo` to `hi` of `d` are freed. -/
def freed (lab : Nat → Label) (d lo hi : Nat) : Nat → Label := fun f =>
  match lab f with
  | .user d' u => if d' = d ∧ lo ≤ u ∧ u < hi then .free else .user d' u
  | l => l

/-- The pages that `sz` bytes take. -/
def pgs (sz : Nat) : Nat := (sz + (PGSIZE - 1)) / PGSIZE

variable {v : Nat}

section

variable {sz : Nat}

theorem lt_pgs_iff : v < pgs sz ↔ v * PGSIZE < sz := by
  unfold pgs PGSIZE; omega

theorem lt_upages (hsz : sz ≤ KERNBASE) (h : v * PGSIZE < sz) : v < UPAGES := by
  unfold UPAGES KERNBASE PGSIZE at *; omega

theorem pgs_le_upages (hsz : sz ≤ KERNBASE) : pgs sz ≤ UPAGES := by
  unfold KERNBASE at hsz; unfold pgs UPAGES KERNBASE PGSIZE; omega

theorem PGROUNDUP_eq (hsz : sz ≤ KERNBASE) : PGROUNDUP sz = pgs sz * PGSIZE := by
  unfold KERNBASE at hsz; unfold PGROUNDUP pgs PGSIZE; omega

theorem add32_next (hv : v + 1 < 1024 * 1024) : add32 (v * PGSIZE) PGSIZE = (v + 1) * PGSIZE := by
  unfold add32 PGSIZE; omega

theorem add32_page (hv : v < UPAGES) : add32 (v * PGSIZE) PGSIZE = (v + 1) * PGSIZE :=
  add32_next (lt_of_le_of_lt hv (by decide))

theorem next_table (hv : v < UPAGES) :
    add32 (sub32 (PGADDR (v / 1024 + 1) 0 0) PGSIZE) PGSIZE = (v / 1024 + 1) * 1024 * PGSIZE := by
  unfold UPAGES KERNBASE PGSIZE at hv
  unfold add32 sub32 PGADDR PGSIZE
  omega

end

variable {L : Link} {pool : Nat → Prop} {s : St} {lab : Nat → Label} {d mid oldsz : Nat} {E : Panic → Prop}

section

variable {f u lo hi : Nat}

theorem freed_user (h : lab f = .user d u) (hlo : lo ≤ u) (hhi : u < hi) : freed lab d lo hi f = .free := by
  rw [freed, h]; exact if_pos ⟨rfl, hlo, hhi⟩

theorem freed_of_not (h : ∀ u, lo ≤ u → u < hi → lab f ≠ .user d u) : freed lab d lo hi f = lab f := by
  rw [freed]
  split
  · next d' u hl =>
    rw [hl, if_neg]; rintro ⟨rfl, h1, h2⟩; exact h u h1 h2 hl
  · rfl

theorem freed_skip (hle : lo ≤ mid) (h : ∀ u, lo ≤ u → u < mid → u < hi → ∀ f, lab f ≠ .user d u) :
    freed lab d lo hi = freed lab d mid hi := by
  funext f
  by_cases hf : ∃ u, lo ≤ u ∧ u < hi ∧ lab f = .user d u
  · obtain ⟨u, h1, h2, hl⟩ := hf
    rw [freed_user hl h1 h2, freed_user hl (not_lt.1 fun hlt => h u h1 hlt h2 f hl) h2]
  · push Not at hf
    rw [freed_of_not hf, freed_of_not fun u h1 h2 => hf u (hle.trans h1) h2]

theorem freed_step (hf : lab f = .user d v) (hhi : v < hi) (honly : ∀ g, lab g = .user d v → g = f) :
    freed (update lab f .free) d (v + 1) hi = freed lab d v hi := by
  funext g
  by_cases he : g = f
  · rw [he, freed_user hf le_rfl hhi, freed_of_not]
    · exact update_self ..
    · intro u _ _; rw [update_self]; simp
  · have hlab : update lab f .free g = lab g := update_of_ne he ..
    by_cases hu : ∃ u, v ≤ u ∧ u < hi ∧ lab g = .user d u
    · obtain ⟨u, h1, h2, hl⟩ := hu
      have hne : u ≠ v := fun h => he (honly g (h ▸ hl))
      rw [freed_user hl h1 h2, freed_user (hlab.trans hl) (by omega) h2]
    · push Not at hu
      rw [freed_of_not hu, freed_of_not fun u h1 h2 => hlab ▸ hu u (by omega) h2, hlab]

theorem frame_pos (hg : Good L pool s lab) (h : lab f ≠ .outside) : 0 < f := by
  have hv := (hg.valid f ((hg.inside f).1 h)).1
  have h1 := L.text
  have h2 := L.data_le
  by_contra h0
  rw [Nat.eq_zero_of_not_pos h0, zero_mul] at hv
  omega

/-- What changes when the user pages from `lo` to `hi` of `d` are freed. -/
structure Shrinks (d lo hi : Nat) (s : St) (lab : Nat → Label) (s' : St) : Prop where
  mem : ∀ g, (∀ i, lab g ≠ .table d i) → freed lab d lo hi g = lab g → s'.mem g = s.mem g
  word : ∀ u < 1024 * 1024, word s' d u = if lo ≤ u ∧ u < hi ∧ present (word s d u) then 0 else word s d u

theorem Shrinks.refl (h : hi ≤ lo) : Shrinks d lo hi s lab s :=
  ⟨fun _ _ _ => rfl, fun _ _ => (if_neg fun hu => by omega).symm⟩

theorem Shrinks.skip {s' : St} (h : Shrinks d mid hi s lab s') (hle : lo ≤ mid)
    (hlab : freed lab d lo hi = freed lab d mid hi) (hno : ∀ u, lo ≤ u → u < mid → u < hi → ¬present (Vm.word s d u)) :
    Shrinks d lo hi s lab s' := by
  refine ⟨fun g hgt hgl => h.mem g hgt (hlab ▸ hgl), fun u hu => ?_⟩
  rw [h.word u hu]
  refine if_congr ⟨fun ⟨h1, h2⟩ => ⟨hle.trans h1, h2⟩, fun ⟨h1, h2, h3⟩ => ⟨?_, h2, h3⟩⟩ rfl rfl
  exact not_lt.1 fun hlt => hno u h1 hlt h2 h3

theorem word_unmap {t : Nat} {b : Page} (hg : Good L pool s lab) (hv : v < UPAGES) (ht : tab s d (v / 1024) = some t)
    (hf : lab f = .user d v) : ∀ u < 1024 * 1024,
      word (put { s with mem := update s.mem f b, free := f :: s.free } t (v % 1024) 0) d u =
        if u = v then 0 else word s d u := by
  have hm : ¬(lab f).Meta := hf ▸ Label.not_meta_user d v
  have hd := ((hg.user d v f).1 hf).1
  have hv' := page_lt hv
  obtain ⟨htab, hword⟩ := hg.views_fillOther (b := b) hm hd
  exact fun u hu => word_put_page (hg.fillOther hm) hd hv' ((htab _).trans ht) (by decide) hword u hu

/-- The user pages from `v` up to the size are given back, and no error is met. -/
theorem deallocLoop_ends (hsz : oldsz ≤ KERNBASE) : ∀ (n v : Nat) (s : St) (lab : Nat → Label),
    Good L pool s lab → lab d = .dir → v ≤ UPAGES → UPAGES < v + n →
    Ends E (fun _ s' => Good L pool s' (freed lab d v (pgs oldsz)) ∧ Shrinks d v (pgs oldsz) s lab s')
      (deallocLoop L d oldsz n (v * PGSIZE) s) := by
  intro n
  induction n with
  | zero => intro v s lab _ _ h1 h2; omega
  | succ n ih =>
    intro v s lab hg hd hvU hn
    rw [deallocLoop]
    refine .ite (fun hlt => ?_) fun hge => ?_
    · have hv := lt_upages hsz hlt
      have hv' := page_lt hv
      have hhi := lt_pgs_iff.2 hlt
      rw [bind_ok (walkpgdir_look s d (v * PGSIZE)), PDX_page hv', PTX_page]
      cases htab : tab s d (v / 1024) with
      | none =>
        -- no table: the loop goes on behind what the table would map
        have hUP : UPAGES = 512 * 1024 := rfl
        have hnp : ∀ u, v ≤ u → u < (v / 1024 + 1) * 1024 → u < pgs oldsz → ¬present (word s d u) := by
          intro u h1 h2 _
          rw [word_none (by rw [show u / 1024 = v / 1024 by omega, htab])]
          exact not_present_zero
        have hskip := freed_skip (by omega) fun u h1 h2 h3 f hl => hnp u h1 h2 h3 ((hg.user d u f).1 hl).2.2.1
        show Ends _ _ (deallocLoop L d oldsz n (add32 (sub32 (PGADDR (v / 1024 + 1) 0 0) PGSIZE) PGSIZE) s)
        rw [next_table hv, hskip]
        exact (ih _ s lab hg hd (by omega) (by omega)).post fun _ s' ⟨hg', hs⟩ =>
          ⟨hg', hs.skip (by omega) hskip hnp⟩
      | some t =>
        have hw := word_some htab
        show Ends _ _ ((get >>= fun s => _ : M Unit) s)
        rw [get_bind, ← hw]
        refine .ite (fun hp => ?_) fun hp => ?_
        · have hf := (hg.user d v _).2 ⟨hd, hv, hp, rfl⟩
          have hpos := frame_pos hg (by rw [hf]; simp)
          have hvalid := hg.valid _ ((hg.inside _).1 (by rw [hf]; simp : lab (frame (word s d v)) ≠ .outside))
          generalize hfr : frame (word s d v) = f at *
          have hk : kfree L f s = .ok ((), { s with mem := update s.mem f (junk s.free), free := f :: s.free }) :=
            if_neg (by omega)
          have honly : ∀ g, lab g = .user d v → g = f := fun g hl => ((hg.user d v g).1 hl).2.2.2.symm.trans hfr
          have hne : d ≠ f := fun he => by
            rw [← he, hd] at hf; cases hf
          have hlt := (hg.table d (v / 1024) t).2 ⟨hd, Nat.div_lt_of_lt_mul hv', htab⟩
          rw [if_neg (ne_of_gt hpos), bind_ok hk, ← freed_step hf hhi honly]
          show Ends _ _ (deallocLoop L d oldsz n (add32 (v * PGSIZE) PGSIZE)
            (put { s with mem := update s.mem f (junk s.free), free := f :: s.free } t (v % 1024) 0))
          rw [add32_page hv]
          refine (ih (v + 1) _ _ (hg.unmap hv htab hf) (by rw [update_of_ne hne, hd]) hv (by omega)).mono
            (fun _ h => h) fun _ s' ⟨hg', hs⟩ => ⟨hg', fun g hgt hgl => ?_, fun u hu => ?_⟩
          · have hgf : g ≠ f := fun he => by
              rw [he, freed_user hf le_rfl hhi, hf] at hgl; cases hgl
            have hlab : update lab f .free g = lab g := update_of_ne hgf ..
            rw [hs.mem g (by rw [hlab]; exact hgt) (by rw [freed_step hf hhi honly, hgl, hlab])]
            refine (put_mem_of_ne fun he => ?_).trans (update_of_ne hgf ..)
            rw [he] at hgt
            exact hgt _ hlt
          · rw [hs.word u hu, word_unmap hg hv htab hf u hu]
            by_cases huv : u = v
            · rw [if_pos huv, ite_self, if_pos ⟨le_of_eq huv.symm, huv ▸ hhi, huv ▸ hp⟩]
            · rw [if_neg huv]; exact if_congr (and_congr_left' (by omega)) rfl rfl
        · have hnp : ∀ u, v ≤ u → u < v + 1 → u < pgs oldsz → ¬present (word s d u) := by
            intro u h1 h2 _; rwa [show u = v by omega]
          have hskip := freed_skip (Nat.le_succ v) fun u h1 h2 h3 f hl => hnp u h1 h2 h3 ((hg.user d u f).1 hl).2.2.1
          rw [add32_page hv, hskip]
          exact (ih _ s lab hg hd hv (by omega)).post fun _ s' ⟨hg', hs⟩ =>
            ⟨hg', hs.skip (Nat.le_succ v) hskip hnp⟩
    · have hhi : pgs oldsz ≤ v := not_lt.1 fun h => hge (lt_pgs_iff.1 h)
      have hsame : freed lab d v (pgs oldsz) = lab := funext fun f => freed_of_not fun u h1 h2 => by omega
      rw [hsame]
      exact .ret ⟨hg, .refl hhi⟩

theorem deallocuvm_ends (hg : Good L pool s lab) (hd : lab d = .dir) (hsz : oldsz ≤ KERNBASE) (newsz : Nat) :
    Ends E (fun r s' => r = (if oldsz ≤ newsz then oldsz else newsz) ∧
      Good L pool s' (freed lab d (pgs newsz) (pgs oldsz)) ∧ Shrinks d (pgs newsz) (pgs oldsz) s lab s')
      (deallocuvm L d oldsz newsz s) := by
  refine .ite (fun hle => ?_) fun hlt => ?_
  · have hpg : pgs oldsz ≤ pgs newsz := Nat.div_le_div_right (Nat.add_le_add_right hle _)
    have hsame : freed lab d (pgs newsz) (pgs oldsz) = lab := funext fun f => freed_of_not fun u h1 h2 => by omega
    rw [hsame]
    exact .ret ⟨(if_pos hle).symm, hg, .refl hpg⟩
  · have hnew : newsz ≤ KERNBASE := ((not_le.1 hlt).trans_le hsz).le
    rw [PGROUNDUP_eq hnew]
    refine Ends.bind (deallocLoop_ends hsz _ _ s lab hg hd (pgs_le_upages hnew)
      (lt_of_lt_of_le (by decide : UPAGES < turns) le_add_self)) fun _ s' ⟨h1, h2⟩ => ?_
    exact .ret ⟨(if_neg hlt).symm, h1, h2⟩

end

/-! ## `freevm` -/

/-- The labels after the tables for the indices `is` of `d` are freed. -/
def swept (lab : Nat → Label) (s : St) (d : Nat) (is : List Nat) : Nat → Label := fun f =>
  if ∃ i ∈ is, tab s d i = some f then .free else lab f

theorem freeTables_ends : ∀ (is : List Nat) (s : St) (lab : Nat → Label), Good L pool s lab → is.Nodup →
    (∀ i ∈ is, ∀ t, tab s d i = some t → lab t = .hand ∧ t ≠ d) →
    (∀ i ∈ is, ∀ j ∈ is, ∀ t, tab s d i = some t → tab s d j = some t → i = j) →
    Ends E (fun _ s' => Good L pool s' (swept lab s d is) ∧ ∀ g, (¬∃ i ∈ is, tab s d i = some g) → s'.mem g = s.mem g)
      (freeTables L d is s) := by
  intro is
  induction is with
  | nil =>
    intro s lab hg _ _ _
    have hsame : swept lab s d [] = lab := funext fun f => if_neg fun ⟨i, hi, _⟩ => List.not_mem_nil hi
    rw [hsame]
    exact .ret ⟨hg, fun _ _ => rfl⟩
  | cons i is ih =>
    intro s lab hg hnd hhand hinj
    obtain ⟨hi, hnd⟩ := List.nodup_cons.1 hnd
    rw [freeTables, get_bind]
    refine .ite (fun hp => ?_) fun hp => ?_
    · have ht : tab s d i = some (frame (entry s d i)) := if_pos hp
      obtain ⟨hth, htd⟩ := hhand i List.mem_cons_self _ ht
      generalize frame (entry s d i) = t at *
      refine (kfree_ends hg hth).bind ?_
      rintro _ s1 ⟨hm1, hg1⟩
      have htab : ∀ j, tab s1 d j = tab s d j := fun j => tab_congr (hm1 d htd.symm)
      have hne : ∀ j ∈ is, tab s d j ≠ some t := fun j hj hjt => by
        rw [hinj i List.mem_cons_self j (.tail _ hj) t ht hjt] at hi; exact hi hj
      refine (ih s1 _ hg1 hnd (fun j hj t' ht' => ?_) fun j hj k hk t' h1 h2 => ?_).post fun _ s2 ⟨hg2, hm2⟩ => ?_
      · rw [htab] at ht'
        have hne' : t' ≠ t := fun he => hne j hj (he ▸ ht')
        rw [update_of_ne hne']
        exact hhand j (.tail _ hj) t' ht'
      · rw [htab] at h1 h2
        exact hinj j (.tail _ hj) k (.tail _ hk) t' h1 h2
      · have hsw : swept (update lab t .free) s1 d is = swept lab s d (i :: is) := by
          funext f
          simp only [swept, htab, List.mem_cons, exists_eq_or_imp, ht]
          by_cases hft : f = t
          · rw [hft, update_self, ite_self, if_pos (.inl rfl)]
          · rw [update_of_ne hft]; simp only [Option.some.injEq, Ne.symm hft, false_or]
        rw [hsw] at hg2
        refine ⟨hg2, fun g hgn => ?_⟩
        have hgt : g ≠ t := fun he => hgn ⟨i, List.mem_cons_self, he ▸ ht⟩
        rw [hm2 g fun ⟨j, hj, hjg⟩ => hgn ⟨j, .tail _ hj, htab j ▸ hjg⟩, hm1 g hgt]
    · have hnone : tab s d i = none := if_neg hp
      have hsw : swept lab s d is = swept lab s d (i :: is) := by
        funext f
        simp only [swept, List.mem_cons, exists_eq_or_imp, hnone, reduceCtorEq, false_or]
      refine (ih s lab hg hnd (fun j hj => hhand j (.tail _ hj)) fun j hj k hk =>
        hinj j (.tail _ hj) k (.tail _ hk)).post fun _ s2 ⟨hg2, hm2⟩ => ?_
      exact ⟨hsw ▸ hg2, fun g hgn => hm2 g fun ⟨j, hj, hjg⟩ => hgn ⟨j, .tail _ hj, hjg⟩⟩

theorem gone_of_freed (hg : Good L pool s (freed lab d (pgs 0) (pgs KERNBASE))) (hd : lab d = .dir)
    (hmap : ∀ u f, lab f = .user d u → u < UPAGES) {is : List Nat} (his : ∀ i, i ∈ is ↔ i < NPDENTRIES) :
    update (swept (retired (freed lab d (pgs 0) (pgs KERNBASE)) d) s d is) d .free = gone lab d := by
  have hlab : ∀ {g}, (∀ u, lab g ≠ .user d u) → freed lab d (pgs 0) (pgs KERNBASE) g = lab g := fun h =>
    freed_of_not fun u _ _ => h u
  have hd1 : freed lab d (pgs 0) (pgs KERNBASE) d = .dir := by rw [hlab (by rw [hd]; simp), hd]
  have hswept : ∀ {g}, (∃ i ∈ is, tab s d i = some g) ↔ ∃ i, freed lab d (pgs 0) (pgs KERNBASE) g = .table d i :=
    exists_congr fun i => by rw [hg.table, his]; exact ⟨fun h => ⟨hd1, h⟩, fun h => h.2⟩
  have hout : ∀ {g}, (∀ i, freed lab d (pgs 0) (pgs KERNBASE) g ≠ .table d i) →
      swept (retired (freed lab d (pgs 0) (pgs KERNBASE)) d) s d is g =
        retired (freed lab d (pgs 0) (pgs KERNBASE)) d g :=
    fun h => if_neg fun hs => (hswept.1 hs).elim h
  funext g
  by_cases hgd : g = d
  · rw [hgd, update_self, gone, if_pos (.inl rfl)]
  rw [update_of_ne hgd]
  by_cases hu : ∃ u, lab g = .user d u
  · -- a user page is free by now
    obtain ⟨u, hu⟩ := hu
    have hf : freed lab d (pgs 0) (pgs KERNBASE) g = .free := freed_user hu zero_le (hmap u g hu)
    rw [hout (by rw [hf]; simp), gone, if_pos (.inr (by rw [hu]; rfl)), retired, if_neg, hf]
    rw [hf]
    exact fun h => h.elim hgd (by simp [Label.base])
  · push Not at hu
    by_cases ht : ∃ i, lab g = .table d i
    · obtain ⟨i, ht⟩ := ht
      rw [swept, if_pos (hswept.2 ⟨i, by rw [hlab hu, ht]⟩), gone, if_pos (.inr (by rw [ht]; rfl))]
    · push Not at ht
      have hb : ¬(g = d ∨ (lab g).base = some d) := by
        rintro (h | h)
        · exact hgd h
        · rcases Label.base_eq_some.1 h with ⟨i, hi⟩ | ⟨u, h⟩
          · exact ht i hi
          · exact hu u h
      rw [hout (by rw [hlab hu]; exact ht), retired, hlab hu, gone, if_neg hb, if_neg hb]

theorem freevm_ends (hg : Good L pool s lab) (hd : lab d = .dir) :
    Ends E (fun _ s' => Good L pool s' (gone lab d) ∧ ∀ g, g ≠ d → (lab g).base ≠ some d → s'.mem g = s.mem g)
      (freevm L d s) := by
  obtain ⟨is, heq, hnd, his⟩ : ∃ is, List.range NPDENTRIES = is ∧ is.Nodup ∧ ∀ i, i ∈ is ↔ i < NPDENTRIES :=
    ⟨_, rfl, List.nodup_range, fun _ => List.mem_range⟩
  rw [freevm, heq]
  refine (deallocuvm_ends hg hd le_rfl 0).bind ?_
  rintro _ s1 ⟨_, hg1, hm1, _⟩
  have hgone := gone_of_freed hg1 hd (fun u f hl => ((hg.user d u f).1 hl).2.1) his
  have hlab1 : ∀ {g}, (lab g).base ≠ some d → freed lab d (pgs 0) (pgs KERNBASE) g = lab g := fun hb =>
    freed_of_not fun u _ _ hl => hb (by rw [hl]; rfl)
  have hd1 : freed lab d (pgs 0) (pgs KERNBASE) d = .dir := by rw [hlab1 (by rw [hd]; simp [Label.base]), hd]
  generalize freed lab d (pgs 0) (pgs KERNBASE) = lab1 at *
  have htab1 : ∀ {i t}, i ∈ is → tab s1 d i = some t → lab1 t = .table d i := fun hi ht =>
    (hg1.table _ _ _).2 ⟨hd1, (his _).1 hi, ht⟩
  have hhand : ∀ i ∈ is, ∀ t, tab s1 d i = some t → retired lab1 d t = .hand ∧ t ≠ d := by
    intro i hi t ht
    have hl := htab1 hi ht
    refine ⟨if_pos (.inr (by rw [hl]; rfl)), fun he => ?_⟩
    rw [he, hd1] at hl
    cases hl
  refine (freeTables_ends is s1 _ (hg1.retire hd1) hnd hhand fun i hi j hj t h1 h2 => ?_).bind ?_
  · injection (htab1 hi h1).symm.trans (htab1 hj h2)
  · rintro _ s2 ⟨hg2, hm2⟩
    have hdtab : ¬∃ i ∈ is, tab s1 d i = some d := by
      rintro ⟨i, hi, ht⟩; exact (hhand i hi d ht).2 rfl
    have hd2 : swept (retired lab1 d) s1 d is d = .hand := (if_neg hdtab).trans (if_pos (.inl rfl))
    refine (kfree_ends hg2 hd2).post ?_
    rintro _ s3 ⟨hm3, hg3⟩
    refine ⟨hgone ▸ hg3, fun g hgd hb => ?_⟩
    have hgtab : ¬∃ i ∈ is, tab s1 d i = some g := by
      rintro ⟨i, hi, ht⟩
      have hl := htab1 hi ht
      rw [hlab1 hb] at hl
      exact hb (by rw [hl]; rfl)
    rw [hm3 g hgd, hm2 g hgtab, hm1 g (fun i hl => hb (by rw [hl]; rfl)) (hlab1 hb)]

end Xv6.Vm
