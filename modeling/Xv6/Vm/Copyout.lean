/-
`copyout` through the tables of a directory. A page of the range that is not there, or not the user's, makes it
return -1; a page without a table makes it dereference the null pointer. What it writes are the bytes of the
range, wherever the tables have them.
-/
import Xv6.Vm.Conserve
import Xv6.Vm.Copy

namespace Xv6.Vm

open Base

/-- The page that byte `j` from `va` on lies in; addresses wrap around. -/
def pageOf (va j : Nat) : Nat := (va + j) % 2 ^ 32 / PGSIZE

/-- The page is there, and the user's. -/
def Writable (s : St) (d v : Nat) : Prop := present (word s d v) ∧ userBit (word s d v)

instance (s : St) (d v : Nat) : Decidable (Writable s d v) :=
  inferInstanceAs (Decidable (present (word s d v) ∧ userBit (word s d v)))

/-- The first byte of the range that is not in such a page. -/
def FirstBad (s : St) (d va len j : Nat) : Prop :=
  j < len ∧ ¬Writable s d (pageOf va j) ∧ ∀ i < j, Writable s d (pageOf va i)

/-- The kernel's part of the directory is that of `setupkvm`. -/
def KernelPart (L : Link) (s : St) (d : Nat) : Prop :=
  ∀ u, UPAGES ≤ u → u < 1024 * 1024 → word s d u = kentry (kmap L) u

/-- Only bytes of the range changed. -/
structure Writes (d va len : Nat) (s s' : St) : Prop where
  free : s'.free = s.free
  fails : s'.fails = s.fails
  mem : ∀ f o, s'.mem f o ≠ s.mem f o →
    ∃ j < len, Writable s d (pageOf va j) ∧ f = frame (word s d (pageOf va j)) ∧ o = (va + j) % PGSIZE

section

variable {w : Nat}

theorem userBit_iff : userBit w ↔ w.testBit 2 = true := by
  rw [Nat.testBit_eq_decide_div_mod_eq, decide_eq_true_iff]; rfl

theorem userBit_or {pa perm : Nat} (hpa : pa % PGSIZE = 0) : userBit (pa ||| perm ||| PTE_P) ↔ userBit perm := by
  have h : pa.testBit 2 = false := by
    rw [← Bool.not_eq_true, ← userBit_iff]
    unfold userBit PTE_U
    unfold PGSIZE at hpa
    omega
  rw [userBit_iff, userBit_iff, Nat.testBit_or, Nat.testBit_or, h, Bool.false_or,
    show PTE_P.testBit 2 = false by decide, Bool.or_false]

end

theorem not_userBit_kentry (L : Link) (u : Nat) : ¬userBit (kentry (kmap L) u) := by
  have hrows : ∀ k ∈ kmap L, ¬userBit k.perm ∧ k.virt % PGSIZE = 0 ∧ k.phys_start % PGSIZE = 0 := by
    have hp := L.page
    have hv : (KERNBASE + L.data) % PGSIZE = 0 := by
      unfold PGSIZE KERNBASE at *; omega
    simp only [kmap, List.mem_cons, List.not_mem_nil, or_false]
    rintro k (rfl | rfl | rfl | rfl)
    · exact ⟨by decide, by decide, by decide⟩
    · exact ⟨(by decide : ¬userBit 0), (by decide : (KERNBASE + EXTMEM) % PGSIZE = 0),
        (by decide : EXTMEM % PGSIZE = 0)⟩
    · exact ⟨(by decide : ¬userBit PTE_W), hv, hp⟩
    · exact ⟨by decide, by decide, by decide⟩
  generalize kmap L = ks at hrows
  induction ks with
  | nil => exact (by decide : ¬userBit 0)
  | cons k ks ih =>
    rw [kentry]
    split
    · obtain ⟨h1, h2, h3⟩ := hrows k List.mem_cons_self
      rwa [userBit_or]
      unfold PGSIZE at *
      omega
    · exact ih fun k hk => hrows k (.tail _ hk)

variable {s s1 s' : St} {lab : Nat → Label} {j i k f : Nat} {ok : Bool}

section

variable {L : Link} {pool : Nat → Prop} {d va len : Nat} {buf : Nat → UInt8}

theorem Writable.lt (hker : KernelPart L s d) {v : Nat} (hv : v < 1024 * 1024) (h : Writable s d v) : v < UPAGES := by
  by_contra hge
  have hw := hker v (not_lt.1 hge) hv
  rw [Writable, hw] at h
  exact not_userBit_kentry L v h.2

theorem uva2ka_eq (s : St) (d v : Nat) (hv : v < 1024 * 1024) : uva2ka d (v * PGSIZE) s =
    if tab s d (v / 1024) = none then .error .fault
    else .ok (if Writable s d v then some (frame (word s d v)) else none, s) := by
  rw [uva2ka, bind_ok (walkpgdir_look s d (v * PGSIZE)), PDX_page hv, PTX_page]
  cases ht : tab s d (v / 1024) with
  | none => rfl
  | some t =>
    have hne : ¬some t = none := by simp
    show (get >>= fun s => _ : M (Option Nat)) s = _
    rw [get_bind, if_neg hne, ← word_some ht]
    by_cases hp : present (word s d v)
    · rw [if_neg (not_not.2 hp)]
      by_cases hu : userBit (word s d v)
      · rw [if_neg (not_not.2 hu), if_pos ⟨hp, hu⟩]; rfl
      · rw [if_pos hu, if_neg fun h => hu h.2]; rfl
    · rw [if_pos hp, if_neg fun h => hp h.1]; rfl

theorem pageOf_lt (va j : Nat) : pageOf va j < 1024 * 1024 := by
  unfold pageOf PGSIZE; omega

theorem pageOf_zero (hva : va < 2 ^ 32) : pageOf va 0 = va / PGSIZE := by
  rw [pageOf, add_zero, Nat.mod_eq_of_lt hva]

theorem pageOf_first (hva : va < 2 ^ 32) (hj : j < PGSIZE - va % PGSIZE) : pageOf va j = va / PGSIZE := by
  unfold pageOf; unfold PGSIZE at *; omega

theorem pageOf_next : pageOf (add32 (PGROUNDDOWN va) PGSIZE) j = pageOf va (PGSIZE - va % PGSIZE + j) := by
  unfold pageOf add32 PGROUNDDOWN PGSIZE; omega

theorem pageOf_ne (hij : i < j) (hj : j < len) (hlen : len ≤ 2 ^ 32) (hp : pageOf va i = pageOf va j) :
    (va + i) % PGSIZE ≠ (va + j) % PGSIZE := by
  unfold pageOf at hp
  unfold PGSIZE at *
  omega

theorem pageOf_rest (hk : k = min (PGSIZE - va % PGSIZE) len) (hj : j < len - k) :
    pageOf (add32 (PGROUNDDOWN va) PGSIZE) j = pageOf va (k + j) := by
  rw [pageOf_next, show k = PGSIZE - va % PGSIZE by omega]

theorem FirstBad.cons (hva : va < 2 ^ 32) (hw : Writable s d (va / PGSIZE)) (hk : k = min (PGSIZE - va % PGSIZE) len)
    (hword : ∀ u < 1024 * 1024, word s1 d u = word s d u)
    (h : FirstBad s1 d (add32 (PGROUNDDOWN va) PGSIZE) (len - k) j) : FirstBad s d va len (k + j) := by
  have hwr : ∀ u < 1024 * 1024, Writable s1 d u ↔ Writable s d u := fun u hu => by rw [Writable, Writable, hword u hu]
  obtain ⟨hj, hnw, hall⟩ := h
  rw [hwr _ (pageOf_lt ..), pageOf_rest hk hj] at hnw
  refine ⟨by omega, hnw, fun i hi => ?_⟩
  by_cases hik : i < k
  · rwa [pageOf_first hva (by omega)]
  · have hi' := hall (i - k) (by omega)
    rwa [hwr _ (pageOf_lt ..), pageOf_rest hk (by omega), show k + (i - k) = i by omega] at hi'

/-- What a run of the loop ends in. -/
structure Copied (s : St) (d va : Nat) (buf : Nat → UInt8) (len : Nat) (ok : Bool) (s' : St) : Prop where
  tab : ∀ i, tab s' d i = tab s d i
  word : ∀ u < 1024 * 1024, word s' d u = word s d u
  writes : Writes d va len s s'
  bytes : ok = true → ∀ j < len, Writable s d (pageOf va j) ∧
    s'.mem (frame (Vm.word s d (pageOf va j))) ((va + j) % PGSIZE) = buf j
  bad : ok = false → ∃ j, FirstBad s d va len j ∧ Vm.tab s d (pageOf va j / 1024) ≠ none

theorem Copied.cons (hva : va < 2 ^ 32) (hlen : len ≤ 2 ^ 32) (hw : Writable s d (va / PGSIZE))
    (hf : frame (Vm.word s d (va / PGSIZE)) = f) (hk : k = min (PGSIZE - va % PGSIZE) len)
    (hs1 : s1 = filled s f (paste (s.mem f) (va % PGSIZE) k buf)) (htab : ∀ i, Vm.tab s1 d i = Vm.tab s d i)
    (hword : ∀ u < 1024 * 1024, Vm.word s1 d u = Vm.word s d u)
    (hinj : ∀ u < 1024 * 1024, Writable s d u → frame (Vm.word s d u) = f → u = va / PGSIZE)
    (h : Copied s1 d (add32 (PGROUNDDOWN va) PGSIZE) (slice buf k) (len - k) ok s') : Copied s d va buf len ok s' := by
  have hoff : va % PGSIZE < PGSIZE := Nat.mod_lt va (by decide)
  have hwr : ∀ u < 1024 * 1024, Writable s1 d u ↔ Writable s d u := fun u hu => by rw [Writable, Writable, hword u hu]
  have hfirst : ∀ {j}, j < k → pageOf va j = va / PGSIZE := fun hj => pageOf_first hva (by omega)
  -- a byte behind the first page is one of the rest
  have hnext : ∀ {j}, j < len - k → pageOf (add32 (PGROUNDDOWN va) PGSIZE) j = pageOf va (k + j) := pageOf_rest hk
  have hnextoff : ∀ {j}, j < len - k → (add32 (PGROUNDDOWN va) PGSIZE + j) % PGSIZE =
      (va + (k + j)) % PGSIZE := fun hj => by
    have hkc : k = PGSIZE - va % PGSIZE := by omega
    rw [hkc]
    unfold add32 PGROUNDDOWN PGSIZE
    omega
  have hoffj : ∀ {j}, j < k → (va + j) % PGSIZE = va % PGSIZE + j := fun hj => by
    unfold PGSIZE at *; omega
  refine ⟨fun i => (h.tab i).trans (htab i), fun u hu => (h.word u hu).trans (hword u hu),
    ⟨h.writes.free.trans (by rw [hs1]; rfl), h.writes.fails.trans (by rw [hs1]; rfl), fun g o hne => ?_⟩,
    fun hok j hj => ?_, fun hok => ?_⟩
  · by_cases hs : s'.mem g o = s1.mem g o
    · rw [hs, hs1] at hne
      have hgf : g = f := by
        by_contra hgf
        exact hne (by rw [filled_mem_of_ne hgf])
      rw [hgf, filled_mem_self] at hne
      have hin : va % PGSIZE ≤ o ∧ o < va % PGSIZE + k := by
        by_contra hout
        exact hne (paste_out (by omega))
      refine ⟨o - va % PGSIZE, by omega, ?_⟩
      rw [hfirst (by omega), hoffj (by omega)]
      exact ⟨hw, hgf.trans hf.symm, by omega⟩
    · obtain ⟨j, hj, hwj, hg, ho⟩ := h.writes.mem g o hs
      rw [hwr _ (pageOf_lt ..), hnext hj] at hwj
      rw [hword _ (pageOf_lt ..), hnext hj] at hg
      exact ⟨k + j, by omega, hwj, hg, ho.trans (hnextoff hj)⟩
  · by_cases hjk : j < k
    · rw [hfirst hjk, hf, hoffj hjk]
      refine ⟨hw, ?_⟩
      have hs : s'.mem f (va % PGSIZE + j) = s1.mem f (va % PGSIZE + j) := by
        by_contra hne
        obtain ⟨i, hi, hwi, hg, ho⟩ := h.writes.mem _ _ hne
        rw [hwr _ (pageOf_lt ..), hnext hi] at hwi
        rw [hword _ (pageOf_lt ..), hnext hi] at hg
        rw [hnextoff hi, ← hoffj hjk] at ho
        have hpage := hinj _ (pageOf_lt ..) hwi hg.symm
        exact pageOf_ne (by omega : j < k + i) (by omega) hlen ((hfirst hjk).trans hpage.symm) ho
      rw [hs, hs1, filled_mem_self, paste_add hjk]
    · obtain ⟨hwj, hb⟩ := h.bytes hok (j - k) (by omega)
      rw [hwr _ (pageOf_lt ..), hnext (by omega)] at hwj
      rw [hword _ (pageOf_lt ..), hnext (by omega), hnextoff (by omega)] at hb
      rw [show k + (j - k) = j by omega] at hwj hb
      exact ⟨hwj, hb.trans (by rw [slice, show k + (j - k) = j by omega])⟩
  · obtain ⟨j, hbad, ht⟩ := h.bad hok
    rw [htab, hnext hbad.1] at ht
    exact ⟨k + j, hbad.cons hva hw hk hword, ht⟩

theorem copyoutLoop_ends (hd : lab d = .dir) : ∀ (n va len : Nat) (buf : Nat → UInt8) (s : St),
    Good L pool s lab → KernelPart L s d → va < 2 ^ 32 → len ≤ 2 ^ 32 → va % PGSIZE + len ≤ n * PGSIZE →
    Ends (fun e => e = .fault ∧ ∃ j, FirstBad s d va len j ∧ tab s d (pageOf va j / 1024) = none)
      (fun ok s' => Good L pool s' lab ∧ Copied s d va buf len ok s') (copyoutLoop d n va buf len s) := by
  intro n
  induction n with
  | zero =>
    intro va len buf s hg _ _ _ hn
    have h0 : len = 0 := by omega
    refine .ite (fun h => by omega) fun _ => .ret ⟨hg, fun _ => rfl, fun _ _ => rfl,
      ⟨rfl, rfl, fun _ _ h => (h rfl).elim⟩, ?_, ?_⟩
    · intro _ j hj; omega
    · intro h; cases h
  | succ n ih =>
    intro va len buf s hg hker hva hlen hn
    rw [copyoutLoop]
    refine .ite (fun hpos => ?_) fun h0 => ?_
    · have hv : va / PGSIZE < 1024 * 1024 := pageOf_zero hva ▸ pageOf_lt va 0
      have hoff : va - PGROUNDDOWN va = va % PGSIZE := by
        unfold PGROUNDDOWN PGSIZE; omega
      have hround : PGROUNDDOWN va = va / PGSIZE * PGSIZE := rfl
      have hbad : ¬Writable s d (va / PGSIZE) → FirstBad s d va len 0 := fun h =>
        ⟨hpos, by rwa [pageOf_zero hva], fun i hi => absurd hi not_lt_zero⟩
      rw [hoff]
      by_cases htab : tab s d (va / PGSIZE / 1024) = none
      · have hnw : ¬Writable s d (va / PGSIZE) := fun h => not_present_zero (word_none htab ▸ h.1)
        have hu : uva2ka d (PGROUNDDOWN va) s = .error .fault := by rw [hround, uva2ka_eq s d _ hv, if_pos htab]
        rw [bind_error hu]
        exact ⟨rfl, 0, hbad hnw, by rwa [pageOf_zero hva]⟩
      · have hu : uva2ka d (PGROUNDDOWN va) s =
            .ok (if Writable s d (va / PGSIZE) then some (frame (word s d (va / PGSIZE))) else none, s) := by
          rw [hround, uva2ka_eq s d _ hv, if_neg htab]
        rw [bind_ok hu]
        by_cases hw : Writable s d (va / PGSIZE)
        · rw [if_pos hw]
          have hvU := Writable.lt hker hv hw
          have hl := (hg.user d (va / PGSIZE) _).2 ⟨hd, hvU, hw.1, rfl⟩
          have hinj : ∀ u < 1024 * 1024, Writable s d u → frame (word s d u) = frame (word s d (va / PGSIZE)) →
              u = va / PGSIZE := by
            intro u hu hwu he
            have hlu := (hg.user d u _).2 ⟨hd, Writable.lt hker hu hwu, hwu.1, rfl⟩
            rw [he, hl] at hlu
            injection hlu with _ h
            exact h.symm
          generalize hf : frame (word s d (va / PGSIZE)) = f at *
          have hm : ¬(lab f).Meta := hl ▸ Label.not_meta_user _ _
          have hdf : d ≠ f := fun he => hm (.inl (he ▸ hd))
          generalize hk : min (PGSIZE - va % PGSIZE) len = k
          generalize hs1 : filled s f (paste (s.mem f) (va % PGSIZE) k buf) = s1
          obtain ⟨htab1, hword1⟩ : (∀ i, tab s1 d i = tab s d i) ∧ ∀ u < 1024 * 1024, word s1 d u = word s d u :=
            hs1 ▸ hg.views_fillOther hm hd
          have hg1 : Good L pool s1 lab := hs1 ▸ hg.fillOther hm
          have hker1 : KernelPart L s1 d := fun u h1 h2 => (hword1 u h2).trans (hker u h1 h2)
          show Ends _ _ (copyoutLoop d n (add32 (PGROUNDDOWN va) PGSIZE) (slice buf k) (len - k)
            (filled s f (paste (s.mem f) (va % PGSIZE) k buf)))
          rw [hs1]
          refine (ih _ _ (slice buf k) s1 hg1 hker1 ?_ (by omega) ?_).mono
            (fun e h => ?_) fun ok s' ⟨hg', h⟩ => ⟨hg', ?_⟩
          · exact Nat.mod_lt _ (by decide)
          · unfold add32 PGROUNDDOWN; unfold PGSIZE at *; omega
          · obtain ⟨he, j, hbad, ht⟩ := h
            rw [htab1, pageOf_rest hk.symm hbad.1] at ht
            exact ⟨he, k + j, hbad.cons hva hw hk.symm hword1, ht⟩
          · exact .cons hva hlen hw hf hk.symm hs1.symm htab1 hword1 hinj h
        · rw [if_neg hw]
          refine .ret ⟨hg, fun _ => rfl, fun _ _ => rfl, ⟨rfl, rfl, fun _ _ h => (h rfl).elim⟩,
            (fun h => by cases h), fun _ => ?_⟩
          exact ⟨0, hbad hw, by rwa [pageOf_zero hva]⟩
    · refine .ret ⟨hg, fun _ => rfl, fun _ _ => rfl, ⟨rfl, rfl, fun _ _ h => (h rfl).elim⟩,
        fun _ j hj => by omega, fun h => ?_⟩
      cases h

theorem copyout_ends (hg : Good L pool s lab) (hd : lab d = .dir) (hker : KernelPart L s d) (hva : va < 2 ^ 32)
    (hlen : len < 2 ^ 32) (buf : Nat → UInt8) :
    Ends (fun e => e = .fault ∧ ∃ j, FirstBad s d va len j ∧ tab s d (pageOf va j / 1024) = none)
      (fun ok s' => Good L pool s' lab ∧ Copied s d va buf len ok s') (copyout d va buf len s) := by
  refine copyoutLoop_ends hd turns va len buf s hg hker hva hlen.le ?_
  unfold turns PGSIZE
  omega

/-- Success means that the bytes of the range are those of the buffer, all in pages of the user, and no other byte
has changed; failure, that a page of the range is not there or not the user's. -/
def CopyoutExact (s : St) (d va : Nat) (buf : Nat → UInt8) (len : Nat) (ok : Bool) (s' : St) : Prop :=
  if ok then (∀ j < len, Writable s d (pageOf va j) ∧ ubyte s' d ((va + j) % 2 ^ 32) = buf j) ∧
    ∀ f o, s'.mem f o ≠ s.mem f o → ∃ j < len, f = frame (word s d (pageOf va j)) ∧ o = (va + j) % PGSIZE
  else ∃ j < len, ¬Writable s d (pageOf va j)

theorem Copied.exact (h : Copied s d va buf len ok s') : CopyoutExact s d va buf len ok s' := by
  cases ok with
  | false => obtain ⟨j, hbad, -⟩ := h.bad rfl; exact ⟨j, hbad.1, hbad.2.1⟩
  | true =>
    refine ⟨fun j hj => ?_, fun f o hne => ?_⟩
    · obtain ⟨hw, hb⟩ := h.bytes rfl j hj
      have hoff : (va + j) % 2 ^ 32 % PGSIZE = (va + j) % PGSIZE := Nat.mod_mod_of_dvd _ (by decide)
      refine ⟨hw, ?_⟩
      show s'.mem (frame (Vm.word s' d (pageOf va j))) ((va + j) % 2 ^ 32 % PGSIZE) = buf j
      rw [h.word _ (pageOf_lt va j), hoff, hb]
    · obtain ⟨j, hj, -, hf, ho⟩ := h.writes.mem f o hne; exact ⟨j, hj, hf, ho⟩

theorem FirstBad.unique (hi : FirstBad s d va len i) (hj : FirstBad s d va len j) : i = j := by
  rcases lt_trichotomy i j with h | h | h
  · exact (hi.2.1 (hj.2.2 i h)).elim
  · exact h
  · exact (hj.2.1 (hi.2.2 j h)).elim

/-- `copyout` does what it should exactly when the first page of the range that is not there, or not the user's,
has a table. -/
theorem copyout_exact_iff (hg : Good L pool s lab) (hd : lab d = .dir) (hker : KernelPart L s d) (hva : va < 2 ^ 32)
    (hlen : len < 2 ^ 32) (buf : Nat → UInt8) :
    Ends (fun _ => False) (CopyoutExact s d va buf len) (copyout d va buf len s) ↔
      ∀ j, FirstBad s d va len j → tab s d (pageOf va j / 1024) ≠ none := by
  have hends := copyout_ends hg hd hker hva hlen buf
  constructor
  · intro h j hbad htab
    cases hs : copyout d va buf len s with
    | error e => rw [hs] at h; exact h
    | ok r =>
      rw [hs] at hends
      obtain ⟨-, hc⟩ := hends
      cases hok : r.1 with
      | true => exact hbad.2.1 (hc.bytes hok j hbad.1).1
      | false => obtain ⟨i, hi, ht⟩ := hc.bad hok; exact ht (hi.unique hbad ▸ htab)
  · intro h
    exact hends.mono (fun e ⟨_, j, hbad, htab⟩ => h j hbad htab) fun ok s' ⟨_, hc⟩ => hc.exact

end

theorem Process.writable (h : Process s lab f) : Writable s 0x200 0 := by
  rw [Writable, h.page, userBit_or (Nat.mul_mod_left f PGSIZE)]; exact ⟨or_present _, by decide⟩

theorem Process.copied (h : Process s lab f) : ∃ d lab' s',
    copyuvm link 0x200 PGSIZE s = .ok (some d, s') ∧ lab d = .free ∧ Good link (· ∈ pool) s' lab' ∧ lab' d = .dir ∧
    Writable s' d 0 := by
  have hone : pgs PGSIZE = 1 := by decide
  have hok : Ends (fun _ => False) _ (copyuvm link 0x200 PGSIZE s) :=
    ((copyuvm_ends h.good h.dir PGSIZE).and h.copy).err fun e ⟨⟨u, hu, he⟩, _⟩ => by
      obtain rfl : u = 0 := by omega
      rcases he with ⟨-, hU⟩ | ⟨-, hno⟩
      · exact absurd hU (by decide)
      · exact hno (h.present 0 (by decide))
  obtain ⟨r, s', hs, hr, d, rfl⟩ := hok.exists_ok
  rcases hr with ⟨hr, -⟩ | ⟨d', lab', hr, hfree, hg', hgrows, hpages, -⟩
  · cases hr
  obtain rfl := Option.some.inj hr
  obtain ⟨f', -, hw, -⟩ := hpages 0 (by decide)
  refine ⟨d, lab', s', hs, hfree, hg', hgrows.dir (Function.update_self ..), ?_⟩
  rw [Writable, hw, userBit_or (Nat.mul_mod_left f' PGSIZE), flagsOf, h.page, flags_or (by decide)]
  exact ⟨or_present _, by decide⟩

/-- Three bytes are written to the page of the process. -/
theorem copyout_exact_process :
    ∃ s s', KernelPart link s 0x200 ∧ copyout 0x200 5 (ofList [1, 2, 3]) 3 s = .ok (true, s') ∧
    ubyte s' 0x200 5 = 1 ∧ ubyte s' 0x200 6 = 2 ∧
    ubyte s' 0x200 7 = 3 ∧ ∀ f o, s'.mem f o ≠ s.mem f o → 5 ≤ o ∧ o < 8 := by
  obtain ⟨-, s, lab, f, -, -, h⟩ := boot_process
  have hker : KernelPart link s 0x200 := fun u hU hu => h.kernel u (lt_of_lt_of_le (by decide) hU) hu
  have hwrite : ∀ j < 3, Writable s 0x200 (pageOf 5 j) := fun j hj => by
    rw [show pageOf 5 j = 0 by unfold pageOf PGSIZE; omega]; exact h.writable
  have hends := (copyout_exact_iff h.good h.dir hker (show 5 < 2 ^ 32 by decide) (show 3 < 2 ^ 32 by decide)
    (ofList [1, 2, 3])).2 fun j hbad _ => hbad.2.1 (hwrite j hbad.1)
  obtain ⟨ok, s', hs, hex⟩ := hends.exists_ok
  cases ok with
  | false => obtain ⟨j, hj, hno⟩ := hex; exact (hno (hwrite j hj)).elim
  | true =>
    obtain ⟨hbytes, hmem⟩ := hex
    refine ⟨s, s', hker, hs, (hbytes 0 (by decide)).2, (hbytes 1 (by decide)).2,
      (hbytes 2 (by decide)).2, fun f o hne => ?_⟩
    obtain ⟨j, hj, -, rfl⟩ := hmem f o hne
    unfold PGSIZE
    omega

/-- A new directory has no table for 4 MB. -/
theorem copyout_null_pte : ∃ s, step link boot (.setupkvm, []) = some ⟨s, [0x200]⟩ ∧
    copyout 0x200 0x400000 (fun _ => 1) 1 s = .error .fault := by
  obtain ⟨s, lab, hs, -, -, -, -, htab⟩ := boot_setupkvm
  have hu : uva2ka 0x200 (PGROUNDDOWN 0x400000) s = .error .fault := by
    rw [show PGROUNDDOWN 0x400000 = 1024 * PGSIZE by decide, uva2ka_eq _ _ _ (by decide), if_pos (htab 1 (by decide))]
  refine ⟨s, hs, ?_⟩
  rw [copyout, turns, copyoutLoop, if_pos (by decide), bind_error hu]

end Xv6.Vm
