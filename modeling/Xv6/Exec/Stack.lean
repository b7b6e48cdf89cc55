/-
The stack of a new program: a guard page that the user cannot reach, the page above it, and the argument strings
pushed into that page from the top. A push that does not fit has a byte in the guard page, whatever the length of
the string and however the address wraps around, so `copyout` refuses it; what is pushed later lies below.
-/
import Xv6.Exec.Load

namespace Xv6.Exec

open Base Vm

variable {g n sp va hi : Nat}

theorem push_inside (hg : (g + 2) * PGSIZE ≤ KERNBASE) (hlo : (g + 1) * PGSIZE ≤ sp) (hhi : sp ≤ (g + 2) * PGSIZE)
    (hn : 0 < n) (hn' : n < 2 ^ 32) (hva : va = sub32 sp n / 4 * 4) (hoff : ∀ j < n, pageOf va j ≠ g) :
    (g + 1) * PGSIZE ≤ va ∧ va + n ≤ sp := by
  unfold pageOf at hoff
  unfold sub32 at hva
  unfold PGSIZE KERNBASE at *
  by_cases hfit : (g + 1) * 4096 + n ≤ sp
  · omega
  · exfalso
    -- the last byte, or the last byte of the guard page, is in the guard page
    by_cases hlast : (sp + 2 ^ 32 - n) / 4 * 4 + n ≤ (g + 1) * 4096 + 2 ^ 32
    · refine hoff (n - 1) (by omega) ?_
      omega
    · refine hoff ((g + 1) * 4096 + 2 ^ 32 - 1 - (sp + 2 ^ 32 - n) / 4 * 4) (by omega) ?_
      omega

theorem push_pages (hg : hi * PGSIZE ≤ KERNBASE) (hhi : sp ≤ hi * PGSIZE) (hva : va = sub32 sp n / 4 * 4)
    (hfit : g * PGSIZE + (n + 3) ≤ sp) {j : Nat} (hj : j < n) : g ≤ pageOf va j ∧ pageOf va j < hi := by
  unfold pageOf
  unfold sub32 at hva
  unfold PGSIZE KERNBASE at *
  omega

/-! ## The guard page -/

theorem clear_user {w w' : Nat} (hw : w < 2 ^ 32) (h : (if userBit w then w - PTE_U else w) = w') :
    w' < 2 ^ 32 ∧ (present w' ↔ present w) ∧ frame w' = frame w ∧ ¬userBit w' := by
  split at h
  all_goals
    unfold userBit PTE_U at *
    unfold present frame PGSIZE
    omega

/-- The image below, a guard page that the user cannot reach, and the page of the stack. -/
structure Image (d g : Nat) (img : Nat → UInt8) (s : St) : Prop where
  small : (g + 2) * PGSIZE ≤ KERNBASE
  pages : ∀ v < UPAGES, present (word s d v) ↔ v < g + 2
  guard : ¬userBit (word s d g)
  bytes : ∀ a < g * PGSIZE, ubyte s d a = img a

/-- A directory that was made since the state `s0`, with such an image. -/
structure Guarded (L : Link) (pool : Nat → Prop) (s0 : St) (lab0 : Nat → Label) (d g : Nat) (img : Nat → UInt8)
    (s : St) (lab : Nat → Label) : Prop extends Built L pool s0 lab0 d s lab, Image d g img s

variable {L : Link} {pool : Nat → Prop} {s s' s0 : St} {lab lab0 : Nat → Label} {d : Nat} {img : Nat → UInt8}

theorem clearpteu_ends {E : Panic → Prop} (h : Space L pool s0 lab0 d ((g + 2) * PGSIZE) img s lab) :
    Ends E (fun _ s' => Guarded L pool s0 lab0 d g img s' lab ∧ Writable s' d (g + 1))
      (clearpteu d (sub32 ((g + 2) * PGSIZE) (2 * PGSIZE)) s) := by
  have hsmall := h.small
  have hguard : sub32 ((g + 2) * PGSIZE) (2 * PGSIZE) = g * PGSIZE := by
    unfold sub32 PGSIZE; unfold PGSIZE KERNBASE at hsmall; omega
  rw [hguard]
  have hpgs : pgs ((g + 2) * PGSIZE) = g + 2 := by
    unfold pgs PGSIZE; omega
  have hpages := h.pages
  have hbytes := h.bytes
  rw [hpgs] at hpages hbytes
  have hU : g + 2 ≤ UPAGES := hpgs ▸ pgs_le_upages h.small
  have hgU : g < UPAGES := by omega
  have hg32 := page_lt hgU
  have hpr := (hpages g hgU).2 (by omega)
  obtain ⟨t, ht⟩ := tab_of_present hpr
  have hlt := (h.good.table d (g / 1024) t).2 ⟨h.dir, Nat.div_lt_of_lt_mul hg32, ht⟩
  rw [clearpteu, bind_ok (walkpgdir_look s d _), PDX_page hg32, PTX_page, ht]
  show Guarded L pool s0 lab0 d g img (put s t (g % 1024) _) lab ∧ Writable (put s t (g % 1024) _) d (g + 1)
  rw [← word_some ht]
  have hw : word s d g < 2 ^ 32 := by
    rw [word_some ht]; exact entry_lt ..
  generalize hw' : (if userBit (word s d g) then word s d g - PTE_U else word s d g) = w'
  obtain ⟨hw', hp', hf', hu'⟩ := clear_user hw hw'
  have hword : ∀ u < 1024 * 1024, word (put s t (g % 1024) w') d u = if u = g then w' else word s d u := fun u hu => by
    rw [(h.good.put_table h.dir hg32 ht hw' h.dir).2 u hu]; simp only [true_and]
  have hmem : ∀ f, f ≠ t → (put s t (g % 1024) w').mem f = s.mem f := fun f hf => put_mem_of_ne hf
  have hkeeps : Keeps d s lab (put s t (g % 1024) w') lab :=
    ⟨rfl, fun _ _ _ _ => rfl, fun f _ _ hb => hmem f fun he => hb (by rw [he, hlt]; rfl), fun _ _ hm => hm⟩
  refine ⟨⟨⟨h.good.setWord h.dir hg32 ht hw' (.inr ⟨hp', fun _ => hf'⟩), h.keeps.trans hkeeps, fun u h1 h2 => ?_⟩,
    ⟨h.small, fun v hv => ?_, ?_, fun a ha => ?_⟩⟩, ?_⟩
  · rw [hword u h2, if_neg (by omega)]; exact h.kernel u h1 h2
  · rw [hword v (page_lt hv)]
    split
    · next he => rw [hp', he, hpages g hgU]
    · exact hpages v hv
  · rw [hword g hg32, if_pos rfl]; exact hu'
  · have hva : a / PGSIZE < g := Nat.div_lt_of_lt_mul (Nat.mul_comm _ _ ▸ ha)
    have hvU : a / PGSIZE < UPAGES := hva.trans hgU
    have hl := (h.good.user d _ _).2 ⟨h.dir, hvU, (hpages _ hvU).2 (by omega), rfl⟩
    have hne : frame (word s d (a / PGSIZE)) ≠ t := fun he => by
      rw [he, hlt] at hl; cases hl
    rw [ubyte, hword _ (page_lt hvU), if_neg (by omega), hmem _ hne]
    exact hbytes a (ha.trans_le (Nat.mul_le_mul_right _ (by omega)))
  · rw [Writable, hword (g + 1) (page_lt (by omega)), if_neg (by omega)]
    exact ⟨(hpages _ (by omega)).2 (by omega), h.user _ (by rw [hpgs]; omega)⟩

/-! ## A push -/

variable {buf : Nat → UInt8}

section

variable {len : Nat} {ok : Bool}

theorem touches_of_copied (hg : Good L pool s lab) (hd : lab d = .dir) (hker : KernelPart L s d)
    (h : Copied s d va buf len ok s') :
    Touches d lab s s' := by
  refine ⟨h.writes.free, h.writes.fails, h.tab, h.word, fun f hf => funext fun o => ?_⟩
  by_contra hne
  obtain ⟨j, -, hw, rfl, -⟩ := h.writes.mem f o hne
  exact hf _ ((hg.user d _ _).2 ⟨hd, Writable.lt hker (pageOf_lt va j) hw, hw.1, rfl⟩)

theorem ubyte_of_copied {a : Nat} (hg : Good L pool s lab) (hd : lab d = .dir) (hker : KernelPart L s d)
    (h : Copied s d va buf len ok s') (ha : a / PGSIZE < UPAGES) (hp : present (word s d (a / PGSIZE)))
    (hout : ∀ j < len, (va + j) % 2 ^ 32 ≠ a) : ubyte s' d a = ubyte s d a := by
  rw [ubyte, h.word _ (page_lt ha)]
  by_contra hne
  obtain ⟨j, hj, hw, hf, ho⟩ := h.writes.mem _ _ hne
  have hl := (hg.user d _ _).2 ⟨hd, ha, hp, rfl⟩
  have hlj := (hg.user d _ _).2 ⟨hd, Writable.lt hker (pageOf_lt va j) hw, hw.1, rfl⟩
  rw [← hf, hl] at hlj
  injection hlj with _ hpage
  refine hout j hj ?_
  unfold pageOf at hpage
  unfold PGSIZE at *
  omega

end

theorem Image.upages (h : Image d g img s) : g + 2 ≤ UPAGES := by
  have hs := h.small; unfold UPAGES PGSIZE KERNBASE at *; omega

/-- A push that does not fail stays in the page of the stack, and changes nothing above the old top and nothing below
the guard page. It can only run into a missing table if it is too long for the two pages. -/
theorem Guarded.push (h : Guarded L pool s0 lab0 d g img s lab) (hlo : (g + 1) * PGSIZE ≤ sp)
    (hhi : sp ≤ (g + 2) * PGSIZE) (hn : 0 < n) (hn' : n < 2 ^ 32) (hva : va = sub32 sp n / 4 * 4) (buf : Nat → UInt8) :
    Ends (fun e => e = .fault ∧ sp < g * PGSIZE + (n + 3)) (fun ok s' => Built L pool s0 lab0 d s' lab ∧ (ok = true →
      Guarded L pool s0 lab0 d g img s' lab ∧ (g + 1) * PGSIZE ≤ va ∧ va + n ≤ sp ∧ Writable s' d (g + 1) ∧
      (∀ j < n, ubyte s' d (va + j) = buf j) ∧ ∀ a, sp ≤ a → a < (g + 2) * PGSIZE → ubyte s' d a = ubyte s d a))
      (copyout d va buf n s) := by
  have hU := h.upages
  have hva32 : va < 2 ^ 32 := by
    rw [hva]; unfold sub32; omega
  refine (copyout_ends h.good h.dir h.kernel hva32 hn' buf).mono (fun e ⟨he, j, hbad, htab⟩ => ⟨he, ?_⟩)
    fun ok s' ⟨_, hc⟩ => ?_
  · by_contra hfit
    obtain ⟨h1, h2⟩ := push_pages h.small hhi hva (not_lt.1 hfit) hbad.1
    obtain ⟨t, ht⟩ := tab_of_present ((h.pages _ (by omega)).2 h2)
    rw [htab] at ht
    cases ht
  · have ht := touches_of_copied h.good h.dir h.kernel hc
    refine ⟨h.toBuilt.touches ht, fun hok => ?_⟩
    subst hok
    obtain ⟨hin, -⟩ := hc.exact
    obtain ⟨h1, h2⟩ := push_inside h.small hlo hhi hn hn' hva fun j hj he => h.guard (he ▸ (hin j hj).1).2
    have hsmall := h.small
    have hmod : ∀ {j}, j < n → (va + j) % 2 ^ 32 = va + j := fun hj => by
      refine Nat.mod_eq_of_lt ?_
      unfold PGSIZE KERNBASE at *
      omega
    -- what lies outside of the new bytes, in a page that is there
    have hout : ∀ a < (g + 2) * PGSIZE, a < va ∨ va + n ≤ a → ubyte s' d a = ubyte s d a := fun a ha hor => by
      have hpage : a / PGSIZE < g + 2 := Nat.div_lt_of_lt_mul (Nat.mul_comm _ _ ▸ ha)
      refine ubyte_of_copied h.good h.dir h.kernel hc (by omega) ((h.pages _ (by omega)).2 hpage) fun j hj => ?_
      rw [hmod hj]
      omega
    have hword : ∀ {v}, v < UPAGES → word s' d v = word s d v := fun hv => ht.word _ (page_lt hv)
    refine ⟨⟨h.toBuilt.touches ht, h.small, fun v hv => ?_, ?_, fun a ha => ?_⟩, h1, h2, ?_,
      fun j hj => ?_, fun a ha hat => ?_⟩
    · rw [hword hv]; exact h.pages v hv
    · rw [hword (by omega)]; exact h.guard
    · have hle : g * PGSIZE ≤ (g + 1) * PGSIZE := Nat.mul_le_mul_right _ (Nat.le_succ g)
      have hav : a < va := (ha.trans_le hle).trans_le h1
      rw [hout a (by omega) (.inl hav)]
      exact h.bytes a ha
    · have hpage : pageOf va 0 = g + 1 := by
        rw [pageOf, hmod hn]; unfold PGSIZE at *; omega
      have hw := (hin 0 hn).1
      rw [hpage] at hw
      rwa [Writable, hword (by omega)]
    · rw [← hmod hj]; exact (hin j hj).2
    · exact hout a hat (.inr (h2.trans ha))

/-! ## The strings -/

/-- The strings lie below each other, from `hi` down to `lo`, each with its zero. -/
inductive Strings (s : St) (d : Nat) : Nat → List (List UInt8) → List Nat → Nat → Prop
  | nil {hi : Nat} : Strings s d hi [] [] hi
  | cons {hi lo p : Nat} {arg : List UInt8} {args : List (List UInt8)} {ps : List Nat}
      (hfit : p + (arg.length + 1) ≤ hi) (hcopy : ∀ j < arg.length + 1, ubyte s d (p + j) = ofList arg j)
      (hrest : Strings s d p args ps lo) : Strings s d hi (arg :: args) (p :: ps) lo

section

variable {lo : Nat} {args : List (List UInt8)} {ps : List Nat}

theorem Strings.le (h : Strings s d hi args ps lo) : lo ≤ hi := by
  induction h with
  | nil => exact le_rfl
  | cons hfit _ _ ih => omega

theorem Strings.length_eq (h : Strings s d hi args ps lo) : ps.length = args.length := by
  induction h with
  | nil => rfl
  | cons _ _ _ ih => rw [List.length_cons, List.length_cons, ih]

theorem Strings.mem_bounds (h : Strings s d hi args ps lo) : ∀ p ∈ ps, lo ≤ p ∧ p < hi := by
  induction h with
  | nil => exact fun p hp => absurd hp List.not_mem_nil
  | cons hfit _ hrest ih =>
    intro q hq
    have hle := hrest.le
    rcases List.mem_cons.1 hq with rfl | hq
    · omega
    · have := ih q hq; omega

theorem Strings.congr (h : Strings s d hi args ps lo) (hb : ∀ a, lo ≤ a → a < hi → ubyte s' d a = ubyte s d a) :
    Strings s' d hi args ps lo := by
  induction h with
  | nil => exact .nil
  | cons hfit hcopy hrest ih =>
    have hle := hrest.le
    refine .cons hfit (fun j hj => ?_) (ih fun a h1 h2 => hb a h1 (by omega))
    rw [hb _ (by omega) (by omega)]
    exact hcopy j hj

end

/-- Room that the strings take at most, each with its zero and the bytes to align it. -/
def room (args : List (List UInt8)) : Nat := (args.map fun arg => arg.length + 4).sum

theorem room_cons (arg : List UInt8) (args : List (List UInt8)) : room (arg :: args) = arg.length + 4 + room args := by
  rw [room, List.map_cons, List.sum_cons, room]

theorem room_take_le (n : Nat) (args : List (List UInt8)) :
    room (args.take n) ≤ (args.map List.length).sum + 4 * n := by
  induction args generalizing n with
  | nil => rw [List.take_nil]; exact zero_le
  | cons arg args ih =>
    cases n with
    | zero => rw [List.take_zero]; exact zero_le
    | succ n =>
      have := ih n
      rw [List.take_succ_cons, room_cons, List.map_cons, List.sum_cons]
      omega

theorem sum_le_room (args : List (List UInt8)) : (args.map List.length).sum ≤ room args := by
  induction args with
  | nil => exact zero_le
  | cons arg args ih => rw [room_cons, List.map_cons, List.sum_cons]; omega

theorem pushArgs_ends :
    ∀ (argv : List (List UInt8)) (sp : Nat) (ptrs : List Nat) (s : St), Guarded L pool s0 lab0 d g img s lab →
    (g + 1) * PGSIZE ≤ sp → sp ≤ (g + 2) * PGSIZE → sp % 4 = 0 →
    ptrs.length ≤ MAXARG → (∀ arg ∈ argv, arg.length + 1 < 2 ^ 32) →
    Ends (fun e => e = .fault ∧ sp < g * PGSIZE + room (argv.take (MAXARG - ptrs.length)))
      (fun r s' => Built L pool s0 lab0 d s' lab ∧ ∀ sp' ptrs', r = some (sp', ptrs') →
        Guarded L pool s0 lab0 d g img s' lab ∧ (g + 1) * PGSIZE ≤ sp' ∧ sp' % 4 = 0 ∧
        sp ≤ sp' + room (argv.take (MAXARG - ptrs.length)) ∧ ptrs'.length ≤ MAXARG ∧
        ∃ ps, ptrs' = ptrs ++ ps ∧ Strings s' d sp argv ps sp' ∧ ∀ a, sp ≤ a → a < (g + 2) * PGSIZE →
          ubyte s' d a = ubyte s d a)
      (pushArgs d argv sp ptrs s) := by
  intro argv
  induction argv with
  | nil =>
    intro sp ptrs s h hlo hhi hal hmax _
    refine .ret ⟨h.toBuilt, fun sp' ptrs' hr => ?_⟩
    obtain ⟨rfl, rfl⟩ := Prod.mk.inj (Option.some.inj hr)
    exact ⟨h, hlo, hal, le_self_add, hmax, [], (List.append_nil _).symm, .nil, fun _ _ _ => rfl⟩
  | cons arg argv ih =>
    intro sp ptrs s h hlo hhi hal hmax hlen
    rw [pushArgs]
    refine .ite (fun _ => .ret ⟨h.toBuilt, fun _ _ hr => by cases hr⟩) fun hlt => ?_
    have hn := hlen arg List.mem_cons_self
    generalize hsp1 : sub32 sp (arg.length + 1) / 4 * 4 = sp1
    -- the pointers that are still to come, with this one
    have hroom : room ((arg :: argv).take (MAXARG - ptrs.length)) =
        arg.length + 4 + room (argv.take (MAXARG - (ptrs ++ [sp1]).length)) := by
      rw [show MAXARG - ptrs.length = MAXARG - (ptrs ++ [sp1]).length + 1 by
        rw [List.length_append, List.length_singleton]; omega,
        List.take_succ_cons, room_cons]
    rw [hroom]
    have hpush := h.push hlo hhi (Nat.succ_pos arg.length) hn hsp1.symm (ofList arg)
    refine (hpush.err fun e ⟨he, hbig⟩ => ⟨he, by omega⟩).bind ?_
    rintro ok s1 ⟨hb1, hs1⟩
    refine .ite (fun hok => ?_) fun _ => .ret ⟨hb1, fun _ _ hr => by cases hr⟩
    obtain ⟨h1, hlo1, hfit, -, hcopy, habove⟩ := hs1 hok
    have hsub : sp ≤ sp1 + (arg.length + 4) := by
      unfold sub32 at hsp1; unfold PGSIZE at *; omega
    refine (ih sp1 (ptrs ++ [sp1]) s1 h1 hlo1 (by omega) (by omega) ?_ fun a ha => hlen a (.tail _ ha)).mono
      (fun e ⟨he, hbig⟩ => ⟨he, by omega⟩) fun r s' ⟨hb', hr'⟩ => ⟨hb', fun sp' ptrs' hr => ?_⟩
    · rw [List.length_append, List.length_singleton]; omega
    · obtain ⟨h', hlo', hal', hroom', hmax', ps, rfl, hstr, habove'⟩ := hr' sp' ptrs' hr
      refine ⟨h', hlo', hal', by
        omega, hmax', sp1 :: ps, List.append_assoc .., .cons hfit (fun j hj => ?_) hstr, fun a ha hat => ?_⟩
      · rw [habove' _ (by omega) (by omega)]; exact hcopy j hj
      · rw [habove' a (by omega) hat]; exact habove a ha hat

/-- The guard page, the strings below the top and the words below the strings. -/
structure Laid (s : St) (d g : Nat) (argv : List (List UInt8)) (esp sp : Nat) (ps : List Nat) : Prop where
  strings : Strings s d ((g + 2) * PGSIZE) argv ps sp
  align : esp % 4 = 0
  inside : (g + 1) * PGSIZE ≤ esp
  vector : esp + 4 * (ps.length + 4) = sp
  words : ∀ j < 4 * (ps.length + 4), ubyte s d (esp + j) = wordBytes (ustack sp ps) j
  stack : Writable s d (g + 1)

theorem setupStack_ends (h : Space L pool s0 lab0 d ((g + 2) * PGSIZE) img s lab) {argv : List (List UInt8)}
    (hlen : ∀ arg ∈ argv, arg.length + 1 < 2 ^ 32) :
    Ends (fun e => e = .fault ∧ PGSIZE ≤ (argv.map List.length).sum) (fun r s' => Built L pool s0 lab0 d s' lab ∧
      ∀ esp, r = some esp → Guarded L pool s0 lab0 d g img s' lab ∧ ∃ sp ps, Laid s' d g argv esp sp ps)
      (setupStack d ((g + 2) * PGSIZE) argv s) := by
  have hsmall := h.small
  have hroom := room_take_le MAXARG argv
  refine (clearpteu_ends h).bind ?_
  rintro _ s1 ⟨h1, _⟩
  have hargs := pushArgs_ends argv ((g + 2) * PGSIZE) [] s1 h1 (Nat.mul_le_mul_right _ (by omega)) le_rfl
    (by unfold PGSIZE; omega) zero_le hlen
  rw [show MAXARG - ([] : List Nat).length = MAXARG from rfl] at hargs
  have hbig : (g + 2) * PGSIZE < g * PGSIZE + room (argv.take MAXARG) →
      PGSIZE ≤ (argv.map List.length).sum := fun hbig => by
    unfold MAXARG PGSIZE at *; omega
  refine (hargs.err fun e he => ⟨he.1, hbig he.2⟩).bind ?_
  rintro r s2 ⟨hb2, hr2⟩
  cases r with
  | none => exact .ret ⟨hb2, fun _ hr => by cases hr⟩
  | some r =>
    obtain ⟨sp, ps⟩ := r
    obtain ⟨h2, hlo2, hal2, hroom2, hmax2, ps', hps, hstr, -⟩ := hr2 sp ps rfl
    rw [List.nil_append] at hps
    subst hps
    show Ends _ _ ((copyout d (sub32 sp ((3 + ps.length + 1) * 4)) (wordBytes (ustack sp ps))
      ((3 + ps.length + 1) * 4) >>= fun ok => if ok then pure (some (sub32 sp ((3 + ps.length + 1) * 4)))
      else pure none : M (Option Nat)) s2)
    generalize hn : (3 + ps.length + 1) * 4 = n
    have hal : sub32 sp n = sub32 sp n / 4 * 4 := by
      unfold sub32; unfold MAXARG at hmax2; omega
    have hpush := h2.push hlo2 hstr.le (by omega) (by unfold MAXARG at hmax2; omega) hal (wordBytes (ustack sp ps))
    have hbig : sp < g * PGSIZE + (n + 3) → PGSIZE ≤ (argv.map List.length).sum := fun hbig => by
      unfold MAXARG PGSIZE at *; omega
    refine (hpush.err fun e he => ⟨he.1, hbig he.2⟩).bind ?_
    rintro ok s3 ⟨hb3, hs3⟩
    refine .ite (fun hok => .ret ⟨hb3, fun esp hr => ?_⟩) fun _ => .ret ⟨hb3, fun _ hr => by cases hr⟩
    obtain rfl := Option.some.inj hr
    obtain ⟨h3, hlo3, hfit, hw3, hcopy, habove⟩ := hs3 hok
    refine ⟨h3, sp, ps, hstr.congr habove, by omega, hlo3, ?_, fun j hj => hcopy j (by omega), hw3⟩
    have htop : sp < 2 ^ 32 := hstr.le.trans_lt (hsmall.trans_lt (by decide))
    unfold sub32 at *
    omega

/-! ## Room for all of it -/

theorem Guarded.push_fits (h : Guarded L pool s0 lab0 d g img s lab) (hw : Writable s d (g + 1))
    (hhi : sp ≤ (g + 2) * PGSIZE) (hn : 0 < n) (hfit : (g + 1) * PGSIZE + (n + 3) ≤ sp)
    (hva : va = sub32 sp n / 4 * 4) (buf : Nat → UInt8) :
    Ends (fun _ => True) (fun ok s' => ok = true ∧ Guarded L pool s0 lab0 d g img s' lab ∧ Writable s' d (g + 1) ∧
      (g + 1) * PGSIZE ≤ va ∧ va ≤ sp) (copyout d va buf n s) := by
  have hsmall := h.small
  have hn' : n < 2 ^ 32 := by
    unfold KERNBASE at hsmall; omega
  have hva32 : va < 2 ^ 32 := by
    rw [hva]; unfold sub32; omega
  have hends := (h.push (by omega) hhi hn hn' hva buf).and (copyout_ends h.good h.dir h.kernel hva32 hn' buf)
  refine hends.mono (fun _ _ => trivial) ?_
  rintro ok s' ⟨⟨_, hpush⟩, _, hc⟩
  cases ok with
  | false =>
    obtain ⟨j, ⟨hj, hbad, -⟩, -⟩ := hc.bad rfl
    have hpage := push_pages hsmall hhi hva hfit hj
    rw [show pageOf va j = g + 1 by omega] at hbad
    exact (hbad hw).elim
  | true => obtain ⟨h', hlo, hle, hw', -⟩ := hpush rfl; exact ⟨rfl, h', hw', hlo, by omega⟩

theorem pushArgs_fits :
    ∀ (argv : List (List UInt8)) (sp : Nat) (ptrs : List Nat) (s : St), Guarded L pool s0 lab0 d g img s lab →
    Writable s d (g + 1) → sp ≤ (g + 2) * PGSIZE → sp % 4 = 0 → (g + 1) * PGSIZE + room argv ≤ sp →
    ptrs.length + argv.length ≤ MAXARG → Ends (fun _ => True) (fun r s' => ∃ sp' ptrs', r = some (sp', ptrs') ∧
      Guarded L pool s0 lab0 d g img s' lab ∧
      Writable s' d (g + 1) ∧ sp' ≤ sp ∧ sp' % 4 = 0 ∧ sp ≤ sp' + room argv ∧ ptrs'.length = ptrs.length + argv.length)
      (pushArgs d argv sp ptrs s) := by
  intro argv
  induction argv with
  | nil =>
    intro sp ptrs s h hw _ hal _ _
    exact .ret ⟨sp, ptrs, rfl, h, hw, le_rfl, hal, le_self_add, rfl⟩
  | cons arg argv ih =>
    intro sp ptrs s h hw hhi hal hroom hmax
    rw [List.length_cons] at hmax
    rw [room_cons] at hroom ⊢
    rw [pushArgs]
    refine .ite (fun hge => by omega) fun _ => ?_
    generalize hsp1 : sub32 sp (arg.length + 1) / 4 * 4 = sp1
    refine (h.push_fits hw hhi (Nat.succ_pos _) (by omega) hsp1.symm (ofList arg)).bind ?_
    rintro ok s1 ⟨hok, h1, hw1, hlo1, hle1⟩
    refine .ite (fun _ => ?_) fun hno => (hno hok).elim
    have hsub : sp ≤ sp1 + (arg.length + 4) := by
      unfold sub32 at hsp1; unfold PGSIZE at *; omega
    refine (ih sp1 (ptrs ++ [sp1]) s1 h1 hw1 (by omega) (by omega) (by omega) ?_).post
      fun r s' ⟨sp', ptrs', hr, h', hw', hle', hal', hroom', hlen'⟩ =>
      ⟨sp', ptrs', hr, h', hw', by omega, hal', by omega, ?_⟩
    · rw [List.length_append, List.length_singleton]; omega
    · rw [hlen', List.length_append, List.length_singleton, List.length_cons]; omega

theorem setupStack_fits {argv : List (List UInt8)} (h : Space L pool s0 lab0 d ((g + 2) * PGSIZE) img s lab)
    (hmax : argv.length ≤ MAXARG) (hroom : room argv + 4 * (argv.length + 4) + 3 ≤ PGSIZE) :
    Ends (fun _ => True) (fun r _ => r ≠ none) (setupStack d ((g + 2) * PGSIZE) argv s) := by
  have htop : (g + 2) * PGSIZE = (g + 1) * PGSIZE + PGSIZE := Nat.succ_mul (g + 1) PGSIZE
  refine (clearpteu_ends h).bind ?_
  rintro _ s1 ⟨h1, hw1⟩
  refine (pushArgs_fits argv ((g + 2) * PGSIZE) [] s1 h1 hw1 le_rfl (by unfold PGSIZE; omega) (by omega)
    (by rw [List.length_nil]; omega)).bind fun r s2 ⟨sp, ps, hr, h2, hw2, hle, hal, hsp, hlen⟩ => ?_
  subst hr
  rw [List.length_nil, zero_add] at hlen
  show Ends _ _ ((copyout d (sub32 sp ((3 + ps.length + 1) * 4)) (wordBytes (ustack sp ps))
    ((3 + ps.length + 1) * 4) >>= fun ok => if ok then pure (some (sub32 sp ((3 + ps.length + 1) * 4)))
    else pure none : M (Option Nat)) s2)
  generalize hn : (3 + ps.length + 1) * 4 = n
  have halign : sub32 sp n = sub32 sp n / 4 * 4 := by
    unfold sub32; unfold MAXARG at hmax; omega
  refine (h2.push_fits hw2 hle (by omega) (by omega) halign _).bind ?_
  rintro ok s3 ⟨hok, _⟩
  exact .ite (fun _ => .ret (by simp)) fun hno => (hno hok).elim

end Xv6.Exec
