/-
Who owns a page. A label says of every page of the pool that it is free, the directory page of an address
space, one of its tables, mapped in its user part, or in the hands of the code that runs; `Good` says that the
free list and the bytes of the directories and tables agree with the labels. A page has one label, so no page
is owned twice. What the code does to memory is a few moves, each with the label it changes.
-/
import Xv6.Vm.Vm

namespace Xv6.Vm

open Base Function

/-! ## Words -/

variable {s : St} {f g w pa perm : Nat} {b : Page}

section

variable {j k : Nat}

theorem entry_lt (s : St) (f k : Nat) : entry s f k < 2 ^ 32 := getLE_lt (s.mem f) (4 * k) 4

theorem or_present (a : Nat) : present (a ||| PTE_P) := by
  have h : (a ||| PTE_P) % 2 ^ 1 = 1 := by
    rw [Nat.or_mod_two_pow]
    rcases Nat.mod_two_eq_zero_or_one a with h | h <;> rw [pow_one, h] <;> rfl
  exact h

theorem frame_or (hperm : perm < PGSIZE) : frame (pa ||| perm ||| PTE_P) = pa / PGSIZE := by
  show (pa ||| perm ||| PTE_P) / 2 ^ 12 = pa / 2 ^ 12
  have h1 : perm / 2 ^ 12 = 0 := Nat.div_eq_of_lt hperm
  have h2 : PTE_P / 2 ^ 12 = 0 := rfl
  rw [Nat.or_div_two_pow, Nat.or_div_two_pow, h1, h2, Nat.or_zero, Nat.or_zero]

theorem or_lt (hpa : pa < 2 ^ 32) (hperm : perm < PGSIZE) : pa ||| perm ||| PTE_P < 2 ^ 32 :=
  Nat.or_lt_two_pow (Nat.or_lt_two_pow hpa (hperm.trans (by decide))) (by decide)

/-- Memory after `setEntry`. -/
def put (s : St) (f k w : Nat) : St := { s with mem := update s.mem f (putLE (s.mem f) (4 * k) 4 w) }

def filled (s : St) (f : Nat) (b : Page) : St := { s with mem := update s.mem f b }

theorem fill_ends {E : Panic → Prop} : Ends E (fun _ s' => s' = filled s f b) (fill f b s) := rfl

theorem put_mem_self : (put s f k w).mem f = putLE (s.mem f) (4 * k) 4 w := update_self ..

theorem put_mem_of_ne (h : g ≠ f) : (put s f k w).mem g = s.mem g := update_of_ne h ..

theorem filled_mem_self : (filled s f b).mem f = b := update_self ..

theorem filled_mem_of_ne (h : g ≠ f) : (filled s f b).mem g = s.mem g := update_of_ne h ..

theorem entry_filled_zero : entry (filled s f fun _ => 0) f k = 0 := by
  rw [entry, filled_mem_self]; exact getLE_zero fun _ _ _ => rfl

theorem entry_put_self (hw : w < 2 ^ 32) : entry (put s f k w) f k = w := by
  rw [entry, put_mem_self, getLE_putLE]; exact Nat.mod_eq_of_lt hw

theorem entry_put_of_ne (h : g ≠ f ∨ j ≠ k) : entry (put s f k w) g j = entry s g j := by
  by_cases hg : g = f
  · rw [entry, hg, put_mem_self, getLE_putLE_out (by omega), entry]
  · rw [entry, put_mem_of_ne hg, entry]

end

/-! ## Address spaces -/

/-- The table that the directory in page `d` has for index `i`. -/
def tab (s : St) (d i : Nat) : Option Nat := if present (entry s d i) then some (frame (entry s d i)) else none

/-- The entry for page `v` of the address space, 0 where there is no table. -/
def word (s : St) (d v : Nat) : Nat :=
  match tab s d (v / 1024) with
  | some t => entry s t (v % 1024)
  | none => 0

/-- The pages of the user part. -/
def UPAGES : Nat := KERNBASE / PGSIZE

variable {s' : St} {d i t v : Nat}

theorem word_some (h : tab s d (v / 1024) = some t) : word s d v = entry s t (v % 1024) := by
  rw [word, h]

theorem word_none (h : tab s d (v / 1024) = none) : word s d v = 0 := by
  rw [word, h]

theorem not_present_zero : ¬present 0 := by decide

theorem tab_congr (h : s'.mem d = s.mem d) : tab s' d i = tab s d i := by
  rw [tab, tab, entry, entry, h]

theorem word_congr (hd : s'.mem d = s.mem d) (ht : ∀ t, tab s d (v / 1024) = some t → s'.mem t = s.mem t) :
    word s' d v = word s d v := by
  cases h : tab s d (v / 1024) with
  | none => rw [word_none h, word_none ((tab_congr hd).trans h)]
  | some t => rw [word_some h, word_some ((tab_congr hd).trans h), entry, entry, ht t h]

/-! ## Labels -/

inductive Label
  | outside
  | free
  | dir
  | table (d i : Nat)
  | user (d v : Nat)
  | hand
  deriving DecidableEq

/-- The directory that a table or a user's page belongs to. -/
def Label.base : Label → Option Nat
  | .table d _ => some d
  | .user d _ => some d
  | _ => none

variable {l : Label}

theorem Label.base_eq_some : l.base = some d ↔ (∃ i, l = .table d i) ∨ ∃ v, l = .user d v := by
  cases l <;> simp [Label.base, eq_comm]

/-- The pages that hold the entries of address spaces. -/
def Label.Meta (l : Label) : Prop := l = .dir ∨ ∃ d i, l = .table d i

theorem Label.not_meta_hand : ¬Label.hand.Meta := by rintro (h | ⟨_, _, h⟩) <;> cases h

theorem Label.not_meta_user (d v : Nat) : ¬(Label.user d v).Meta := by rintro (h | ⟨_, _, h⟩) <;> cases h

/-- The labels are those of the pages of `pool`, and the free list and the entries agree with them. -/
structure Good (L : Link) (pool : Nat → Prop) (s : St) (lab : Nat → Label) : Prop where
  inside : ∀ f, lab f ≠ .outside ↔ pool f
  valid : ∀ f, pool f → L.stop ≤ f * PGSIZE ∧ f * PGSIZE < PHYSTOP
  nodup : s.free.Nodup
  free : ∀ f, f ∈ s.free ↔ lab f = .free
  table : ∀ d i t, lab t = .table d i ↔ lab d = .dir ∧ i < NPDENTRIES ∧ tab s d i = some t
  user : ∀ d v f, lab f = .user d v ↔ lab d = .dir ∧ v < UPAGES ∧ present (word s d v) ∧ frame (word s d v) = f

/-- The labels once the directory `d` is taken apart. -/
def retired (lab : Nat → Label) (d : Nat) :
    Nat → Label := fun f => if f = d ∨ (lab f).base = some d then .hand else lab f

theorem page_lt (hv : v < UPAGES) : v < 1024 * 1024 := hv.trans_le (by decide)

namespace Good

variable {L : Link} {pool : Nat → Prop} {lab : Nat → Label}

theorem views (hg : Good L pool s lab) (hmem : ∀ f, (lab f).Meta → s'.mem f = s.mem f) (hd : lab d = .dir) :
    (∀ i, tab s' d i = tab s d i) ∧ ∀ v < 1024 * 1024, word s' d v = word s d v := by
  have hdm := hmem d (.inl hd)
  refine ⟨fun i => tab_congr hdm, fun v hv => word_congr hdm fun t ht => hmem t (.inr ?_)⟩
  have hi : v / 1024 < NPDENTRIES := Nat.div_lt_of_lt_mul hv
  exact ⟨d, v / 1024, (hg.table d (v / 1024) t).2 ⟨hd, hi, ht⟩⟩

theorem of_mem (hg : Good L pool s lab) (hfree : s'.free = s.free) (hmem : ∀ f, (lab f).Meta → s'.mem f = s.mem f) :
    Good L pool s' lab := by
  refine ⟨hg.inside, hg.valid, hfree ▸ hg.nodup, fun f => hfree ▸ hg.free f, fun d i t => ?_, fun d v f => ?_⟩
  · rw [hg.table]; exact and_congr_right fun hd => by rw [(hg.views hmem hd).1]
  · rw [hg.user]
    exact and_congr_right fun hd => and_congr_right fun hv => by rw [(hg.views hmem hd).2 v (page_lt hv)]

theorem fillOther (hg : Good L pool s lab) (hm : ¬(lab f).Meta) : Good L pool (filled s f b) lab :=
  hg.of_mem rfl fun _ hmeta => filled_mem_of_ne fun he : _ = f => hm (he ▸ hmeta)

theorem views_fillOther (hg : Good L pool s lab) (hm : ¬(lab f).Meta) (hd : lab d = .dir) :
    (∀ i, tab (filled s f b) d i = tab s d i) ∧ ∀ v < 1024 * 1024, word (filled s f b) d v = word s d v :=
  hg.views (fun _ hmeta => filled_mem_of_ne fun he : _ = f => hm (he ▸ hmeta)) hd

theorem update_eq_of_ne {l' : Label} (hf : lab f ≠ l') (hl : l ≠ l') :
    update lab f l g = l' ↔ lab g = l' := by
  by_cases he : g = f
  · rw [he, update_self]; exact iff_of_false hl hf
  · rw [update_of_ne he]

section

variable (hg : Good L pool s lab)

include hg

/-- A page changes hands between the free list and the code, and no entry changes. -/
theorem relabel (hf : lab f = .free ∨ lab f = .hand) (hl : l = .free ∨ l = .hand)
    (hmem : ∀ g, (lab g).Meta → s'.mem g = s.mem g) (hnd : s'.free.Nodup)
    (hfree : ∀ g, g ∈ s'.free ↔ update lab f l g = .free) : Good L pool s' (update lab f l) := by
  have hother : ∀ {g : Nat} {l' : Label}, l' ≠ .free → l' ≠ .hand → (update lab f l g = l' ↔ lab g = l') := by
    intro g l' h1 h2
    refine update_eq_of_ne (fun h => ?_) fun h => ?_
    · exact hf.elim (fun e => h1 (h.symm.trans e)) fun e => h2 (h.symm.trans e)
    · exact hl.elim (fun e => h1 (h.symm.trans e)) fun e => h2 (h.symm.trans e)
  refine ⟨fun g => ?_, hg.valid, hnd, hfree, fun d i t => ?_, fun d v g => ?_⟩
  · rw [ne_eq, hother (by decide) (by decide)]; exact hg.inside g
  · rw [hother (by simp) (by simp), hg.table, hother (by decide) (by decide)]
    exact and_congr_right fun hd => by rw [(hg.views hmem hd).1 i]
  · rw [hother (by simp) (by simp), hg.user, hother (by decide) (by decide)]
    exact and_congr_right fun hd => and_congr_right fun hv => by rw [(hg.views hmem hd).2 v (page_lt hv)]

theorem put_table (hd : lab d = .dir) (hv : v < 1024 * 1024) (ht : tab s d (v / 1024) = some t) (hw : w < 2 ^ 32)
    {d' : Nat} (hd' : lab d' = .dir) : (∀ k, tab (put s t (v % 1024) w) d' k = tab s d' k) ∧
      ∀ u < 1024 * 1024, word (put s t (v % 1024) w) d' u = if d' = d ∧ u = v then w else word s d' u := by
  have hlt := (hg.table d (v / 1024) t).2 ⟨hd, Nat.div_lt_of_lt_mul hv, ht⟩
  have hne : d' ≠ t := fun h => by
    rw [h, hlt] at hd'; cases hd'
  have htab : ∀ k, tab (put s t (v % 1024) w) d' k = tab s d' k := fun k => tab_congr (put_mem_of_ne hne)
  refine ⟨htab, fun u hu => ?_⟩
  cases hu' : tab s d' (u / 1024) with
  | none =>
    rw [word_none ((htab _).trans hu'), word_none hu', if_neg]
    rintro ⟨rfl, rfl⟩
    rw [ht] at hu'
    cases hu'
  | some t' =>
    rw [word_some ((htab _).trans hu'), word_some hu']
    have hl := (hg.table d' (u / 1024) t').2 ⟨hd', Nat.div_lt_of_lt_mul hu, hu'⟩
    by_cases he : t' = t
    · -- the table is that of one index of one directory
      rw [he, hlt] at hl
      injection hl with h1 h2
      by_cases hk : u % 1024 = v % 1024
      · rw [if_pos ⟨h1.symm, by omega⟩, he, hk, entry_put_self hw]
      · rw [if_neg (fun h => hk (by rw [h.2])), he, entry_put_of_ne (.inr hk)]
    · rw [entry_put_of_ne (.inl he), if_neg]
      rintro ⟨rfl, rfl⟩
      rw [ht] at hu'
      exact he (Option.some.inj hu').symm

theorem put_dir (hd : lab d = .dir) (hnone : tab s d i = none) (hz : ∀ k, entry s t k = 0) (ht : ¬(lab t).Meta)
    (hp : present w) (hf : frame w = t) (hw : w < 2 ^ 32) {d' : Nat} (hd' : lab d' = .dir) :
    (∀ k, tab (put s d i w) d' k = if d' = d ∧ k = i then some t else tab s d' k) ∧
      ∀ u < 1024 * 1024, word (put s d i w) d' u = word s d' u := by
  have htd : t ≠ d := fun h => ht (.inl (h ▸ hd))
  have htab : ∀ k, tab (put s d i w) d' k = if d' = d ∧ k = i then some t else tab s d' k := by
    intro k
    by_cases hk : d' = d ∧ k = i
    · rw [if_pos hk, hk.1, hk.2, tab, entry_put_self hw, if_pos hp, hf]
    · rw [if_neg hk, tab, tab, entry_put_of_ne (not_and_or.1 hk)]
  refine ⟨htab, fun u hu => ?_⟩
  by_cases hk : d' = d ∧ u / 1024 = i
  · obtain ⟨rfl, hk⟩ := hk
    have hno : tab s d' (u / 1024) = none := by rw [hk, hnone]
    rw [word_none hno, word_some ((htab _).trans (if_pos ⟨rfl, hk⟩)), entry_put_of_ne (.inl htd), hz]
  · have ht' := (htab (u / 1024)).trans (if_neg hk)
    cases hu' : tab s d' (u / 1024) with
    | none => rw [word_none (ht'.trans hu'), word_none hu']
    | some t' =>
      have hl := (hg.table d' (u / 1024) t').2 ⟨hd', Nat.div_lt_of_lt_mul hu, hu'⟩
      have hne : t' ≠ d := fun h => by
        rw [h, hd] at hl; cases hl
      rw [word_some (ht'.trans hu'), word_some hu', entry_put_of_ne (.inl hne)]

/-- An entry changes that is not a user's, or not in what it maps. -/
theorem setWord (hd : lab d = .dir) (hv : v < 1024 * 1024) (ht : tab s d (v / 1024) = some t) (hw : w < 2 ^ 32)
    (hsame : UPAGES ≤ v ∨ (present w ↔ present (word s d v)) ∧ (present (word s d v) → frame w = frame (word s d v))) :
    Good L pool (put s t (v % 1024) w) lab := by
  refine ⟨hg.inside, hg.valid, hg.nodup, hg.free, fun d' k t' => ?_, fun d' u g => ?_⟩
  · rw [hg.table]; exact and_congr_right fun hd' => by rw [(hg.put_table hd hv ht hw hd').1]
  · rw [hg.user]
    refine and_congr_right fun hd' => and_congr_right fun hu => ?_
    rw [(hg.put_table hd hv ht hw hd').2 u (page_lt hu)]
    split
    · next he =>
      obtain ⟨rfl, rfl⟩ := he
      obtain ⟨hp, hfr⟩ := hsame.resolve_left (not_le.2 hu)
      rw [hp]
      exact and_congr_right fun h => by rw [hfr h]
    · rfl

theorem mapUser (hd : lab d = .dir) (hv : v < UPAGES) (ht : tab s d (v / 1024) = some t) (hnp : ¬present (word s d v))
    (hf : lab f = .hand) (hp : present w) (hfr : frame w = f) (hw : w < 2 ^ 32) :
    Good L pool (put s t (v % 1024) w) (update lab f (.user d v)) := by
  have hv' := page_lt hv
  have hother : ∀ {l : Label} {g : Nat}, l ≠ .hand → l ≠ .user d v → (update lab f (.user d v) g = l ↔ lab g = l) :=
    fun h1 h2 => update_eq_of_ne (hf ▸ h1.symm) h2.symm
  refine ⟨fun g => ?_, hg.valid, hg.nodup, fun g => ?_, fun d' k t' => ?_, fun d' u g => ?_⟩
  · rw [ne_eq, hother (by decide) (by simp)]; exact hg.inside g
  · rw [hother (by decide) (by simp)]; exact hg.free g
  · rw [hother (by simp) (by simp), hother (by decide) (by simp), hg.table]
    exact and_congr_right fun hd' => by rw [(hg.put_table hd hv' ht hw hd').1]
  · rw [hother (l := .dir) (by decide) (by simp)]
    by_cases he : d' = d ∧ u = v
    · obtain ⟨rfl, rfl⟩ := he
      rw [(hg.put_table hd hv' ht hw hd).2 u hv', if_pos ⟨rfl, rfl⟩, hfr]
      constructor
      · intro h
        refine ⟨hd, hv, hp, ?_⟩
        by_contra hne
        rw [update_of_ne (fun h => hne h.symm)] at h
        exact hnp ((hg.user _ _ _).1 h).2.2.1
      · rintro ⟨-, -, -, rfl⟩; exact update_self ..
    · rw [hother (by simp) (fun h => he (by injection h with h1 h2; exact ⟨h1, h2⟩)), hg.user]
      refine and_congr_right fun hd' => and_congr_right fun hu => ?_
      rw [(hg.put_table hd hv' ht hw hd').2 u (page_lt hu), if_neg he]

theorem free_cons (f g : Nat) : g ∈ f :: s.free ↔ update lab f .free g = .free := by
  by_cases he : g = f
  · rw [he, update_self]; exact iff_of_true List.mem_cons_self rfl
  · rw [update_of_ne he, ← hg.free]
    exact ⟨fun h => (List.mem_cons.1 h).resolve_left he, List.mem_cons_of_mem f⟩

/-- The page of a user's entry goes back to the free list, and the entry is cleared. -/
theorem unmap (hv : v < UPAGES) (ht : tab s d (v / 1024) = some t) (hf : lab f = .user d v) :
    Good L pool (put { s with mem := update s.mem f b, free := f :: s.free } t (v % 1024) 0)
      (update lab f .free) := by
  obtain ⟨hd, -, hp, hfr⟩ := (hg.user d v f).1 hf
  have hv' := page_lt hv
  -- the bytes of the page itself are not among those of the tables
  have hm : ¬(lab f).Meta := hf ▸ Label.not_meta_user d v
  have hg1 : Good L pool (filled s f b) lab := hg.fillOther hm
  have ht1 := ((hg.views_fillOther (b := b) hm hd).1 (v / 1024)).trans ht
  have hput : ∀ {d'}, lab d' = .dir → _ := fun hd' => hg1.put_table hd hv' ht1 (w := 0) (by decide) hd'
  have hother : ∀ {l : Label} {g : Nat}, l ≠ .free → l ≠ .user d v → (update lab f .free g = l ↔ lab g = l) :=
    fun h1 h2 => update_eq_of_ne (hf ▸ h2.symm) h1.symm
  have hnf : f ∉ s.free := fun h => by
    rw [hg.free, hf] at h; cases h
  refine ⟨fun g => ?_, hg.valid, List.nodup_cons.2 ⟨hnf, hg.nodup⟩, fun g => ?_, fun d' k t' => ?_, fun d' u g => ?_⟩
  · rw [ne_eq, hother (by decide) (by simp)]; exact hg.inside g
  · exact hg.free_cons f g
  · rw [hother (by simp) (by simp), hother (by decide) (by simp), hg1.table]
    refine and_congr_right fun hd' => and_congr_right fun _ => ?_
    rw [← (hput hd').1 k]
    rfl
  · rw [hother (l := .dir) (by decide) (by simp)]
    by_cases he : d' = d ∧ u = v
    · obtain ⟨rfl, rfl⟩ := he
      refine iff_of_false (fun h => ?_) ?_
      · by_cases hgf : g = f
        · rw [hgf, update_self] at h; cases h
        · rw [update_of_ne hgf] at h; exact hgf (((hg.user _ _ _).1 h).2.2.2.symm.trans hfr)
      · rintro ⟨-, hu, hpu, -⟩
        have hword := (hput hd).2 u hv'
        rw [if_pos ⟨rfl, rfl⟩] at hword
        exact not_present_zero (hword ▸ hpu)
    · rw [hother (by simp) (fun h => he (by injection h with h1 h2; exact ⟨h1, h2⟩)), hg1.user]
      refine and_congr_right fun hd' => and_congr_right fun hu => ?_
      have hword := (hput hd').2 u (page_lt hu)
      rw [if_neg he] at hword
      rw [← hword]
      rfl

theorem newTable (hd : lab d = .dir) (hi : i < NPDENTRIES) (hnone : tab s d i = none) (ht : lab t = .hand)
    (hz : ∀ k, entry s t k = 0) (hp : present w) (hf : frame w = t) (hw : w < 2 ^ 32) :
    Good L pool (put s d i w) (update lab t (.table d i)) := by
  have hput : ∀ {d'}, lab d' = .dir → _ := fun hd' => hg.put_dir hd hnone hz (ht ▸ Label.not_meta_hand)
    hp hf hw hd'
  have hother : ∀ {l : Label} {g : Nat}, l ≠ .hand → l ≠ .table d i → (update lab t (.table d i) g = l ↔ lab g = l) :=
    fun h1 h2 => update_eq_of_ne (ht ▸ h1.symm) h2.symm
  refine ⟨fun g => ?_, hg.valid, hg.nodup, fun g => ?_, fun d' k t' => ?_, fun d' u g => ?_⟩
  · rw [ne_eq, hother (by decide) (by simp)]; exact hg.inside g
  · rw [hother (by decide) (by simp)]; exact hg.free g
  · rw [hother (l := .dir) (by decide) (by simp)]
    by_cases he : d' = d ∧ k = i
    · obtain ⟨rfl, rfl⟩ := he
      rw [(hput hd).1 k, if_pos ⟨rfl, rfl⟩]
      constructor
      · intro h
        refine ⟨hd, hi, congrArg some ?_⟩
        by_contra hne
        rw [update_of_ne (fun h => hne h.symm)] at h
        rw [((hg.table _ _ _).1 h).2.2] at hnone
        cases hnone
      · rintro ⟨-, -, h⟩; obtain rfl := Option.some.inj h; exact update_self ..
    · rw [hother (by simp) (fun h => he (by injection h with h1 h2; exact ⟨h1, h2⟩)), hg.table]
      exact and_congr_right fun hd' => by rw [(hput hd').1 k, if_neg he]
  · rw [hother (by simp) (by simp), hother (by decide) (by simp), hg.user]
    exact and_congr_right fun hd' => and_congr_right fun hu => by rw [(hput hd').2 u (page_lt hu)]

theorem newDir (hd : lab d = .hand) (hz : ∀ k, entry s d k = 0) :
    Good L pool s (update lab d .dir) := by
  have hother : ∀ {l : Label} {g : Nat}, l ≠ .hand → l ≠ .dir → (update lab d .dir g = l ↔ lab g = l) :=
    fun h1 h2 => update_eq_of_ne (hd ▸ h1.symm) h2.symm
  have hdir : ∀ g, update lab d .dir g = .dir ↔ g = d ∨ lab g = .dir := by
    intro g
    by_cases he : g = d
    · rw [he, update_self]; exact iff_of_true rfl (.inl rfl)
    · rw [update_of_ne he]; exact ⟨.inr, fun h => h.resolve_left he⟩
  have htab : ∀ k, tab s d k = none := fun k => by rw [tab, hz, if_neg not_present_zero]
  have hnd : lab d ≠ .dir := by rw [hd]; simp
  refine ⟨fun g => ?_, hg.valid, hg.nodup, fun g => ?_, fun d' k t' => ?_, fun d' u g => ?_⟩
  · rw [ne_eq, hother (by decide) (by decide)]; exact hg.inside g
  · rw [hother (by decide) (by decide)]; exact hg.free g
  · rw [hother (by simp) (by simp), hdir, hg.table]
    by_cases he : d' = d
    · rw [he]
      refine iff_of_false (fun h => hnd h.1) fun h => ?_
      rw [htab] at h
      cases h.2.2
    · rw [or_iff_right he]
  · rw [hother (by simp) (by simp), hdir, hg.user]
    by_cases he : d' = d
    · rw [he]
      refine iff_of_false (fun h => hnd h.1) fun h => ?_
      rw [word_none (htab _)] at h
      exact not_present_zero h.2.2.1
    · rw [or_iff_right he]

theorem retire (hd : lab d = .dir) : Good L pool s (retired lab d) := by
  have hkeep : ∀ {l : Label} {g : Nat}, l ≠ .hand → (retired lab d g = l ↔ g ≠ d ∧ l.base ≠ some d ∧ lab g = l) := by
    intro l g hl
    unfold retired
    split
    · next h =>
      refine iff_of_false hl.symm ?_
      rintro ⟨h1, h2, h3⟩
      rw [← h3] at h2
      exact h.elim h1 h2
    · next h =>
      push Not at h
      exact ⟨fun he => ⟨h.1, he ▸ h.2, he⟩, fun he => he.2.2⟩
  have hne : ∀ {l : Label} {g : Nat}, l ≠ .dir → lab g = l → g ≠ d := fun hl hgl he => hl (by rw [← hgl, he, hd])
  have hdir : ∀ g, retired lab d g = .dir ↔ g ≠ d ∧ lab g = .dir := fun g => by
    rw [hkeep (by decide)]; exact and_congr_right fun _ => and_iff_right (by simp [Label.base])
  refine ⟨fun g => ?_, hg.valid, hg.nodup, fun g => ?_, fun d' k t' => ?_, fun d' u g => ?_⟩
  · rw [← hg.inside, not_iff_not, hkeep (by decide)]
    exact ⟨fun h => h.2.2, fun h => ⟨hne (by decide) h, by simp [Label.base], h⟩⟩
  · rw [hg.free, hkeep (by decide)]
    exact ⟨fun h => ⟨hne (by decide) h, by simp [Label.base], h⟩, fun h => h.2.2⟩
  · rw [hkeep (by simp), hdir, hg.table]
    constructor
    · rintro ⟨-, h2, h3, h4⟩; exact ⟨⟨fun he => h2 (congrArg some he), h3⟩, h4⟩
    · rintro ⟨⟨h2, h3⟩, h4⟩
      exact ⟨hne (by simp) ((hg.table d' k t').2 ⟨h3, h4⟩), fun he => h2 (Option.some.inj he), h3, h4⟩
  · rw [hkeep (by simp), hdir, hg.user]
    constructor
    · rintro ⟨-, h2, h3, h4⟩; exact ⟨⟨fun he => h2 (congrArg some he), h3⟩, h4⟩
    · rintro ⟨⟨h2, h3⟩, h4⟩
      exact ⟨hne (by simp) ((hg.user d' u g).2 ⟨h3, h4⟩), fun he => h2 (Option.some.inj he), h3, h4⟩

end

end Good

/-! ## A machine with one user page -/

/-- A small kernel. -/
def link : Link := ⟨0x101000, 0x102000, by decide, by decide, by decide, by decide⟩

/-- Three pages in hand and three that are free. -/
def handful : St := ⟨fun _ _ => 0, [0x203, 0x204, 0x205], []⟩

def handfulLabel (f : Nat) : Label :=
  if f ∈ [0x200, 0x201, 0x202] then .hand else if f ∈ [0x203, 0x204, 0x205] then .free else .outside

/-- A directory, its first table, and in it the entry of page 0. -/
def onePage : St :=
  put (put handful 0x200 0 (0x201 * PGSIZE ||| (PTE_W ||| PTE_U) ||| PTE_P)) 0x201 0
    (0x202 * PGSIZE ||| (PTE_W ||| PTE_U) ||| PTE_P)

def onePageLabel : Nat → Label :=
  update (update (update handfulLabel 0x200 .dir) 0x201 (.table 0x200 0)) 0x202 (.user 0x200 0)

theorem handful_good :
    Good link (fun f => f ∈ [0x200, 0x201, 0x202] ∨ f ∈ [0x203, 0x204, 0x205]) handful handfulLabel := by
  have hno : ∀ f l, l ≠ .hand → l ≠ .free → l ≠ .outside → handfulLabel f ≠ l := by
    intro f l h1 h2 h3
    unfold handfulLabel
    split
    · exact h1.symm
    · split
      · exact h2.symm
      · exact h3.symm
  refine ⟨fun f => ?_, fun f hf => ?_, by decide, fun f => ?_, fun d i t => ?_, fun d v f => ?_⟩
  · unfold handfulLabel
    split
    · simp_all
    · split <;> simp_all
  · simp only [List.mem_cons, List.not_mem_nil, or_false] at hf
    show 0x102000 ≤ f * 0x1000 ∧ f * 0x1000 < 0xE000000
    omega
  · unfold handfulLabel handful
    split
    · simp_all
      omega
    · split <;> simp_all
  · exact iff_of_false (hno t _ (by simp) (by simp) (by simp)) fun h => hno d .dir (by simp) (by simp) (by simp) h.1
  · exact iff_of_false (hno f _ (by simp) (by simp) (by simp)) fun h => hno d .dir (by simp) (by simp) (by simp) h.1

theorem handful_entry (f k : Nat) : entry handful f k = 0 := getLE_zero fun _ _ _ => rfl

theorem handful_tab (d i : Nat) : tab handful d i = none := by
  rw [tab, handful_entry, if_neg not_present_zero]

/-- The labels of the one page agree with memory, and its entry is the only one. -/
theorem onePage_good : Good link (fun f => f ∈ [0x200, 0x201, 0x202] ∨ f ∈ [0x203, 0x204, 0x205]) onePage onePageLabel ∧
    ∀ v < 1024 * 1024, word onePage 0x200 v = if v = 0 then 0x202 * PGSIZE ||| (PTE_W ||| PTE_U) ||| PTE_P else 0 := by
  have hfr : ∀ t, frame (t * PGSIZE ||| (PTE_W ||| PTE_U) ||| PTE_P) = t := fun t =>
    (frame_or (by decide)).trans (Nat.mul_div_cancel t (by decide))
  have hg1 : Good _ _ handful (update handfulLabel 0x200 .dir) :=
    handful_good.newDir rfl (handful_entry 0x200)
  have hput := hg1.put_dir (d := 0x200) (i := 0) (t := 0x201) (update_self ..) (handful_tab _ _) (handful_entry 0x201)
    Label.not_meta_hand (or_present _) (hfr 0x201) (by decide) (update_self ..)
  have hg2 := hg1.newTable (d := 0x200) (i := 0) (t := 0x201) (update_self ..) (by decide) (handful_tab _ _) rfl
    (handful_entry 0x201) (or_present _) (hfr 0x201) (by decide)
  have hword : ∀ v < 1024 * 1024, word (put handful 0x200 0 (0x201 * PGSIZE ||| (PTE_W ||| PTE_U) ||| PTE_P)) 0x200 v =
      0 := by
    intro v hv; rw [hput.2 v hv, word_none (handful_tab _ _)]
  have htab := (hput.1 0).trans (if_pos ⟨rfl, rfl⟩)
  refine ⟨hg2.mapUser (d := 0x200) (v := 0) (t := 0x201) (f := 0x202) rfl (by decide) htab ?_ rfl (or_present _)
    (hfr 0x202) (by decide), fun v hv => ?_⟩
  · rw [hword 0 (by decide)]; exact not_present_zero
  · have hd2 : update (update handfulLabel 0x200 .dir) 0x201 (.table 0x200 0) 0x200 = .dir := rfl
    have h := (hg2.put_table (d := 0x200) (v := 0) (w := 0x202 * PGSIZE ||| (PTE_W ||| PTE_U) ||| PTE_P) hd2 (by decide)
      htab (by decide) hd2).2 v hv
    rw [hword v hv] at h
    rw [onePage, h]
    simp

end Xv6.Vm
