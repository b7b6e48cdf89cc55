/-
Loading a program. The new address space is described by its size and an image, the bytes that it has: new pages
extend it by zeros, and a segment is pasted into it page by page. The headers are taken in their order, so the image
at the end is that of zeroed memory with every loadable segment written over what came before.
-/
import Xv6.Exec.Exec
import Xv6.Vm.Copyout

namespace Xv6.Exec

open Base Vm

/-! ## Writing to user pages -/

/-- Only bytes of user pages of `d` change. -/
structure Touches (d : Nat) (lab : Nat → Label) (s s' : St) : Prop where
  free : s'.free = s.free
  fails : s'.fails = s.fails
  tab : ∀ i, tab s' d i = tab s d i
  word : ∀ u < 1024 * 1024, word s' d u = word s d u
  mem : ∀ g, (∀ v, lab g ≠ .user d v) → s'.mem g = s.mem g

variable {L : Link} {pool : Nat → Prop} {s s' : St} {lab : Nat → Label} {d n v more : Nat}

section

variable {s'' : St} {o : Nat} {buf : Nat → UInt8}

theorem Touches.refl (d : Nat) (lab : Nat → Label) (s : St) : Touches d lab s s :=
  ⟨rfl, rfl, fun _ => rfl, fun _ _ => rfl, fun _ _ => rfl⟩

theorem Touches.trans (h1 : Touches d lab s s') (h2 : Touches d lab s' s'') : Touches d lab s s'' :=
  ⟨h2.free.trans h1.free, h2.fails.trans h1.fails, fun i => (h2.tab i).trans (h1.tab i),
    fun u hu => (h2.word u hu).trans (h1.word u hu), fun g hg => (h2.mem g hg).trans (h1.mem g hg)⟩

theorem Touches.good (h : Touches d lab s s') (hg : Good L pool s lab) : Good L pool s' lab :=
  hg.of_mem h.free fun g hm => h.mem g fun v hv => by
    rw [hv] at hm
    rcases hm with h | ⟨_, _, h⟩ <;> cases h

theorem Touches.keeps (h : Touches d lab s s') : Keeps d s lab s' lab :=
  ⟨rfl, fun _ _ _ _ => rfl, fun g _ _ hb => h.mem g fun v hv => hb (by rw [hv]; rfl), fun _ _ hm => hm⟩

theorem Touches.room (h : Touches d lab s s') (hr : Room s d more) : Room s' d more := by
  refine ⟨h.fails.trans hr.fails, ?_, ?_, fun i => ?_, ?_⟩
  · rw [h.free]; exact hr.valid
  · rw [h.free]; exact hr.free
  · rw [h.tab]; exact hr.table i
  · simp only [h.tab, h.free]; exact hr.enough

theorem Touches.kernelPart (h : Touches d lab s s') (hk : KernelPart L s d) : KernelPart L s' d := fun u h1 h2 =>
  (h.word u h2).trans (hk u h1 h2)

theorem write_user (hg : Good L pool s lab) (hd : lab d = .dir) (hv : v < UPAGES) (hp : present (word s d v))
    (hn : o + n ≤ PGSIZE) (buf : Nat → UInt8)
    (hs' : s' = filled s (frame (word s d v)) (paste (s.mem (frame (word s d v))) o n buf)) :
    Touches d lab s s' ∧ ∀ a, a / PGSIZE < UPAGES → present (word s d (a / PGSIZE)) →
      ubyte s' d a = paste (ubyte s d) (v * PGSIZE + o) n buf a := by
  have hl := (hg.user d v _).2 ⟨hd, hv, hp, rfl⟩
  generalize hf : frame (word s d v) = f at *
  have hm : ¬(lab f).Meta := hl ▸ Label.not_meta_user d v
  have hdf : d ≠ f := fun he => hm (.inl (he ▸ hd))
  have hword : ∀ u < 1024 * 1024, word s' d u = word s d u := hs' ▸ (hg.views_fillOther hm hd).2
  have hout : ∀ g, g ≠ f → s'.mem g = s.mem g := fun g hgf => by rw [hs', filled_mem_of_ne hgf]
  refine ⟨⟨by rw [hs']; rfl, by rw [hs']; rfl, fun i => tab_congr (hout d hdf), hword, fun g hgu => ?_⟩,
    fun a ha hpa => ?_⟩
  · exact hout g fun he => hgu v (he ▸ hl)
  rw [ubyte, hword _ (page_lt ha)]
  have hoff : a % PGSIZE < PGSIZE := Nat.mod_lt a (by decide)
  have hdiv : a / PGSIZE * PGSIZE + a % PGSIZE = a := Nat.div_add_mod' a PGSIZE
  by_cases hav : a / PGSIZE = v
  · rw [hav] at hdiv ⊢
    rw [hf, hs', filled_mem_self]
    by_cases hin : o ≤ a % PGSIZE ∧ a % PGSIZE < o + n
    · rw [paste_in hin.1 hin.2, paste_in (by omega) (by omega), show a - (v * PGSIZE + o) = a % PGSIZE - o by omega]
    · rw [paste_out (by omega), paste_out (by omega), ubyte, hav, hf]
  · have hne : frame (word s d (a / PGSIZE)) ≠ f := fun he => by
      have hla := (hg.user d (a / PGSIZE) _).2 ⟨hd, ha, hpa, rfl⟩
      rw [he, hl] at hla
      injection hla with _ h
      exact hav h.symm
    rw [hout _ hne, paste_out, ubyte]
    unfold PGSIZE at *
    omega

end

/-! ## `loaduvm` -/

variable {file b : List UInt8} {off sz : Nat}

theorem tab_of_present (h : present (word s d v)) : ∃ t, tab s d (v / 1024) = some t := by
  cases ht : tab s d (v / 1024) with
  | none => rw [word_none ht] at h; exact (not_present_zero h).elim
  | some t => exact ⟨t, rfl⟩

theorem readi_some (h : readi file off n = some b) :
    off ≤ file.length ∧ b.length ≤ n ∧ (b.length = n → off + n ≤ file.length) ∧ ∀ j < b.length, ofList b j =
      slice (ofList file) off j := by
  unfold readi at h
  split at h
  · cases h
  · next hn =>
    obtain rfl := Option.some.inj h
    have hlen : ((file.drop off).take n).length = min n (file.length - off) := by
      rw [List.length_take, List.length_drop]
    refine ⟨by omega, by omega, by omega, fun j hj => ?_⟩
    have hj' : off + j < file.length := by omega
    rw [ofList_eq hj, slice, ofList_eq hj', List.getElem_take, List.getElem_drop]

theorem readi_full (h : off + n ≤ file.length) (hfile : file.length < 2 ^ 32) :
    readi file off n = some ((file.drop off).take n) :=
  if_neg (by
    unfold add32; omega)

theorem loadLoop_ends {v0 : Nat} (hd : lab d = .dir) (hfile : file.length < 2 ^ 32) (hoff : off < 2 ^ 32)
    (hU : v0 + pgs sz ≤ UPAGES) : ∀ (n m : Nat) (s : St), Good L pool s lab →
    (∀ u, v0 ≤ u → u < v0 + pgs sz → present (word s d u)) → m ≤ pgs sz → pgs sz < m + n →
    (m * PGSIZE < sz → m = 0 ∨ off + m * PGSIZE ≤ file.length) →
    Ends (fun _ => False) (fun ok s' => Touches d lab s s' ∧ (off + sz ≤ file.length → ok = true) ∧
      (ok = true → ∀ a, a / PGSIZE < UPAGES → present (word s d (a / PGSIZE)) →
        ubyte s' d a = paste (ubyte s d) ((v0 + m) * PGSIZE) (sz - m * PGSIZE)
        (slice (ofList file) (off + m * PGSIZE)) a))
      (loadLoop file d (v0 * PGSIZE) off sz n (m * PGSIZE) s) := by
  intro n
  induction n with
  | zero => intro m s _ _ h1 h2; omega
  | succ n ih =>
    intro m s hg hpages hm hn hoffm
    rw [loadLoop]
    refine .ite (fun hlt => ?_) fun hge => ?_
    · have hmp := lt_pgs_iff.2 hlt
      have hv : v0 + m < UPAGES := by omega
      have hpr := hpages (v0 + m) (by omega) (by omega)
      obtain ⟨t, ht⟩ := tab_of_present hpr
      have ha : add32 (v0 * PGSIZE) (m * PGSIZE) = (v0 + m) * PGSIZE := by
        unfold UPAGES KERNBASE PGSIZE at hv; unfold add32 PGSIZE; omega
      have ho : add32 off (m * PGSIZE) = off + m * PGSIZE := by
        refine Nat.mod_eq_of_lt ?_
        rcases hoffm hlt with h | h
        · rwa [h, zero_mul]
        · exact h.trans_lt hfile
      have hi : add32 (m * PGSIZE) PGSIZE = (m + 1) * PGSIZE := by
        unfold UPAGES KERNBASE PGSIZE at hv; unfold add32 PGSIZE; omega
      rw [ha, bind_ok (walkpgdir_look s d _), PDX_page (page_lt hv), PTX_page, ht]
      show Ends _ _ ((get >>= fun s => _ : M Bool) s)
      rw [get_bind, ← word_some ht, ho, hi]
      generalize hk : (if sz - m * PGSIZE < PGSIZE then sz - m * PGSIZE else PGSIZE) = k
      have hkP : k ≤ PGSIZE ∧ (k = PGSIZE ∨ k = sz - m * PGSIZE) ∧ k ≤ sz - m * PGSIZE := by
        split at hk <;> omega
      have hread : off + sz ≤ file.length → readi file (off + m * PGSIZE) k =
          some ((file.drop (off + m * PGSIZE)).take k) :=
        fun hfit => readi_full (by omega) hfile
      cases hr : readi file (off + m * PGSIZE) k with
      | none =>
        refine .ret ⟨.refl .., fun hfit => ?_, fun h => by cases h⟩
        cases hr.symm.trans (hread hfit)
      | some b =>
        obtain ⟨hle, hbk, hfull, hbytes⟩ := readi_some hr
        obtain ⟨ht1, hb1⟩ := write_user (o := 0) (n := b.length) hg hd hv hpr (by omega) (ofList b) rfl
        generalize hs1 : filled s (frame (word s d (v0 + m)))
          (paste (s.mem (frame (word s d (v0 + m)))) 0 b.length (ofList b)) = s1 at *
        show Ends _ _ ((if b.length ≠ k then pure false else _ : M Bool)
          (filled s (frame (word s d (v0 + m))) (paste (s.mem (frame (word s d (v0 + m)))) 0 b.length (ofList b))))
        rw [hs1]
        have hlong : off + sz ≤ file.length → b.length = k := fun hfit => by
          rw [Option.some.inj (hr.symm.trans (hread hfit)), List.length_take, List.length_drop]
          omega
        refine .ite (fun hno => .ret ⟨ht1, fun hfit => (hno (hlong hfit)).elim, fun h => by cases h⟩) fun hlen => ?_
        have hlen : b.length = k := not_not.1 hlen
        have hw1 : ∀ {u}, u < UPAGES → word s1 d u = word s d u := fun hu => ht1.word _ (page_lt hu)
        have hnext : (m + 1) * PGSIZE = m * PGSIZE + PGSIZE := Nat.succ_mul m PGSIZE
        have hlast : k = sz - m * PGSIZE ∨ k = PGSIZE ∧ off + (m + 1) * PGSIZE ≤ file.length := by
          rcases hkP.2.1 with h | h
          · have hf := hfull hlen
            rw [h, add_assoc, ← hnext] at hf
            exact .inr ⟨h, hf⟩
          · exact .inl h
        refine (ih (m + 1) s1 (ht1.good hg) (fun u h1 h2 => ?_) hmp (by omega) fun hlt1 => .inr ?_).post
          fun ok s' ⟨ht2, hok2, hb2⟩ => ⟨ht1.trans ht2, hok2, fun hok a ha hpa => ?_⟩
        · rw [hw1 (by omega)]; exact hpages u h1 h2
        · rw [hnext] at hlt1; exact (hlast.resolve_left (by omega)).2
        · have hb := hb1 a ha hpa
          rw [add_zero, hlen] at hb
          rw [hb2 hok a ha (by rwa [hw1 ha])]
          rcases hlast with h | ⟨h, -⟩
          · rw [show sz - (m + 1) * PGSIZE = sz - m * PGSIZE - k by omega]
            exact paste_step (le_of_eq h) hb (fun j hj => hbytes j (hlen ▸ hj)) (.inl h)
          · rw [show sz - (m + 1) * PGSIZE = sz - m * PGSIZE - k by omega]
            refine paste_step hkP.2.2 hb (fun j hj => hbytes j (hlen ▸ hj)) (.inr ⟨?_, fun j => ?_⟩)
            · rw [h, ← add_assoc, Nat.succ_mul]
            · rw [slice, slice, h, hnext, add_assoc, add_assoc, add_assoc]
    · refine .ret ⟨.refl .., fun _ => rfl, fun _ a _ _ => ?_⟩
      rw [paste_out (by omega)]

/-! ## The new address space -/

/-- The directory `d` was made since the state `s0`, and nothing else in use has changed. -/
structure Built (L : Link) (pool : Nat → Prop) (s0 : St) (lab0 : Nat → Label) (d : Nat) (s : St) (lab : Nat → Label) :
    Prop where
  good : Good L pool s lab
  keeps : Keeps d s0 (Function.update lab0 d .dir) s lab
  kernel : KernelPart L s d

/-- It has `sz` bytes, in whole pages, with the bytes `img`. -/
structure Space (L : Link) (pool : Nat → Prop) (s0 : St) (lab0 : Nat → Label) (d sz : Nat) (img : Nat → UInt8)
    (s : St) (lab : Nat → Label) : Prop extends Built L pool s0 lab0 d s lab where
  small : sz ≤ KERNBASE
  pages : ∀ v < UPAGES, present (word s d v) ↔ v < pgs sz
  user : ∀ v < pgs sz, userBit (word s d v)
  bytes : ∀ a < pgs sz * PGSIZE, ubyte s d a = img a
  zero : ∀ a, pgs sz * PGSIZE ≤ a → img a = 0

variable {s0 : St} {lab0 : Nat → Label} {img : Nat → UInt8} {hi lo a : Nat}

section

variable {lab' : Nat → Label}

theorem Built.dir (h : Built L pool s0 lab0 d s lab) : lab d = .dir := h.keeps.dir.trans (Function.update_self ..)

theorem Built.touches (h : Built L pool s0 lab0 d s lab) (ht : Touches d lab s s') : Built L pool s0 lab0 d s' lab :=
  ⟨ht.good h.good, h.keeps.trans ht.keeps, ht.kernelPart h.kernel⟩

theorem Built.undone (h : Built L pool s0 lab0 d s lab) (hg' : Good L pool s' lab')
    (hu : Undone d lo hi s lab s' lab') (hhi : hi ≤ UPAGES) : Built L pool s0 lab0 d s' lab' :=
  ⟨hg', h.keeps.trans hu.keeps, fun u h1 h2 => (hu.same u h2 (by omega)).trans (h.kernel u h1 h2)⟩

theorem Built.adds {perm : Nat → Nat} {bytes : Nat → Page} (h : Built L pool s0 lab0 d s lab)
    (hg' : Good L pool s' lab') (ha : Adds d lo hi perm bytes s lab s' lab') (hhi : hi ≤ UPAGES) :
    Built L pool s0 lab0 d s' lab' :=
  ⟨hg', h.keeps.trans (ha.grows.keeps h.dir), fun u h1 h2 => (ha.same u h2 (by omega)).trans (h.kernel u h1 h2)⟩

theorem div_lt_pgs (h : a < pgs sz * PGSIZE) : a / PGSIZE < pgs sz := Nat.div_lt_of_lt_mul (Nat.mul_comm _ _ ▸ h)

section

variable (h : Space L pool s0 lab0 d sz img s lab)

include h

theorem Space.present_of (ha : a < pgs sz * PGSIZE) :
    a / PGSIZE < UPAGES ∧ present (word s d (a / PGSIZE)) := by
  have hlt := div_lt_pgs ha
  have hU := hlt.trans_le (pgs_le_upages h.small)
  exact ⟨hU, (h.pages _ hU).2 hlt⟩

theorem Space.round : Space L pool s0 lab0 d (pgs sz * PGSIZE) img s lab := by
  have hpgs : pgs (pgs sz * PGSIZE) = pgs sz := by
    unfold pgs PGSIZE; omega
  have hsmall : pgs sz * PGSIZE ≤ KERNBASE := by
    have hs := h.small; unfold pgs PGSIZE KERNBASE at *; omega
  refine ⟨h.toBuilt, hsmall, ?_, ?_, ?_, ?_⟩
  · rw [hpgs]; exact h.pages
  · rw [hpgs]; exact h.user
  · rw [hpgs]; exact h.bytes
  · rw [hpgs]; exact h.zero

theorem Space.adds {newsz : Nat} (hle : sz ≤ newsz) (hnew : newsz < KERNBASE) (hg' : Good L pool s' lab')
    (ha : Adds d (pgs sz) (pgs newsz) userPerm (fun _ => zeroPage) s lab s' lab') :
    Space L pool s0 lab0 d newsz img s' lab' := by
  have hU : pgs newsz ≤ UPAGES := pgs_le_upages hnew.le
  have hpg := pgs_le_pgs hle
  refine ⟨h.toBuilt.adds hg' ha hU, hnew.le, fun v hv => ?_, fun v hv => ?_, fun a haN => ?_, fun a haN => ?_⟩
  · by_cases hin : pgs sz ≤ v ∧ v < pgs newsz
    · obtain ⟨f, -, hw, -⟩ := ha.fresh v hin.1 hin.2
      rw [hw]
      exact iff_of_true (or_present _) hin.2
    · rw [ha.same v (page_lt hv) hin, h.pages v hv]; omega
  · by_cases hin : pgs sz ≤ v
    · obtain ⟨f, -, hw, -⟩ := ha.fresh v hin hv
      rw [hw, userBit_or (Nat.mul_mod_left f PGSIZE)]
      exact (by decide : userBit (PTE_W ||| PTE_U))
    · rw [ha.same v (page_lt (by omega)) (by omega)]
      exact h.user v (not_le.1 hin)
  · have hlt := div_lt_pgs haN
    by_cases hin : pgs sz ≤ a / PGSIZE
    · obtain ⟨f, -, -, hfr, hz⟩ := ha.fresh _ hin hlt
      have haz : pgs sz * PGSIZE ≤ a := (Nat.mul_le_mul_right _ hin).trans (Nat.div_mul_le_self a PGSIZE)
      rw [ubyte, hfr, hz, h.zero a haz]
      rfl
    · have hlt' : a < pgs sz * PGSIZE := (Nat.div_lt_iff_lt_mul (by decide)).1 (not_le.1 hin)
      obtain ⟨hvU, hpr⟩ := h.present_of hlt'
      have hl := (h.good.user d _ _).2 ⟨h.dir, hvU, hpr, rfl⟩
      rw [ubyte, ha.same _ (page_lt hvU) (by omega), ha.grows.mem_user h.dir hl]
      exact h.bytes a hlt'
  · exact h.zero a ((Nat.mul_le_mul_right _ hpg).trans haN)

/-- `allocuvm` on the new directory meets no page that is there, and the size it returns covers what was asked. -/
theorem Space.allocuvm (newsz : Nat) :
    Ends (fun _ => False) (fun r s' => ∃ lab', Built L pool s0 lab0 d s' lab' ∧
      (r ≠ 0 → newsz ≤ r ∧ (sz ≤ newsz → r = newsz ∧ newsz < KERNBASE) ∧ Space L pool s0 lab0 d r img s' lab'))
      (allocuvm L d sz newsz s) := by
  refine (allocuvm_ends h.good h.dir sz newsz).mono (fun e ⟨_, hK, u, h1, h2, h3⟩ => ?_) fun r s' ⟨lab', hg', hr⟩ => ?_
  · have hU := h2.trans_le (pgs_le_upages hK.le)
    exact absurd ((h.pages u hU).1 h3) (not_lt.2 h1)
  · rcases hr with ⟨rfl, -, rfl, rfl⟩ | ⟨rfl, hlt, rfl, rfl⟩ | ⟨hK, hle, ⟨rfl, hu⟩ | ⟨rfl, ha⟩⟩
    · exact ⟨_, h.toBuilt, fun h0 => (h0 rfl).elim⟩
    · exact ⟨_, h.toBuilt, fun _ => ⟨hlt.le, fun hle => absurd hlt (not_lt.2 hle), h⟩⟩
    · exact ⟨_, h.toBuilt.undone hg' hu (pgs_le_upages hK.le), fun h0 => (h0 rfl).elim⟩
    · have hs := h.adds hle hK hg' ha
      exact ⟨_, hs.toBuilt, fun _ => ⟨le_rfl, fun _ => ⟨rfl, hK⟩, hs⟩⟩

theorem Space.loaduvm {vaddr filesz : Nat} (hfile : file.length < 2 ^ 32) (hoff : off < 2 ^ 32)
    (hal : vaddr % PGSIZE = 0) (hsz : vaddr + filesz ≤ sz) :
    Ends (fun _ => False) (fun ok s' => Touches d lab s s' ∧ (off + filesz ≤ file.length → ok = true) ∧
      (ok = true → Space L pool s0 lab0 d sz (paste img vaddr filesz (slice (ofList file) off)) s' lab))
      (loaduvm file d vaddr off filesz s) := by
  obtain ⟨v0, rfl⟩ : ∃ v0, vaddr = v0 * PGSIZE :=
    ⟨vaddr / PGSIZE, (Nat.div_mul_cancel (Nat.dvd_of_mod_eq_zero hal)).symm⟩
  have hpgs : v0 + pgs filesz ≤ pgs sz := by
    unfold pgs PGSIZE at *; omega
  have hU : pgs sz ≤ UPAGES := pgs_le_upages h.small
  have hend : v0 * PGSIZE + filesz ≤ pgs sz * PGSIZE := by
    unfold pgs PGSIZE at *; omega
  rw [Exec.loaduvm, if_neg (by rw [hal]; simp)]
  have hloop := loadLoop_ends h.dir hfile hoff (hpgs.trans hU) turns 0 s h.good
    (fun u h1 h2 => (h.pages u (by omega)).2 (by omega)) zero_le ?_ fun _ => .inl rfl
  · rw [zero_mul] at hloop
    refine hloop.post fun ok s' ⟨ht, hfit, hb⟩ => ⟨ht, hfit, fun hok => ?_⟩
    rw [add_zero, Nat.sub_zero, add_zero] at hb
    refine ⟨h.toBuilt.touches ht, h.small, fun v hv => ?_, fun v hv => ?_, fun a ha => ?_, fun a ha => ?_⟩
    · rw [ht.word v (page_lt hv)]; exact h.pages v hv
    · rw [ht.word v (page_lt (hv.trans_le hU))]; exact h.user v hv
    · obtain ⟨hvU, hpr⟩ := h.present_of ha
      rw [hb hok a hvU hpr]
      by_cases hin : v0 * PGSIZE ≤ a ∧ a < v0 * PGSIZE + filesz
      · rw [paste_in hin.1 hin.2, paste_in hin.1 hin.2]
      · rw [paste_out (by omega), paste_out (by omega)]; exact h.bytes a ha
    · rw [paste_out (.inr (hend.trans ha))]; exact h.zero a ha
  · have hle : pgs filesz ≤ UPAGES := (Nat.le_add_left _ v0).trans (hpgs.trans hU)
    exact hle.trans_lt (by decide)

end

end

/-! ## The headers -/

/-- The program headers, from the offset on. -/
def phdrs (file : List UInt8) : Nat → Nat → List Proghdr
  | 0, _ => []
  | n + 1, off => proghdr ((readi file off sizeofProghdr).getD []) :: phdrs file n (add32 off sizeofProghdr)

/-- A loadable segment is written to memory. -/
def segment (file : List UInt8) (img : Nat → UInt8) (ph : Proghdr) : Nat → UInt8 :=
  if ph.type = ELF_PROG_LOAD then paste img ph.vaddr ph.filesz (slice (ofList file) ph.off) else img

/-- A segment at address 0 that lies in the file and leaves room for a stack. -/
structure OneSegment (file : List UInt8) (ph : Proghdr) : Prop where
  type : ph.type = ELF_PROG_LOAD
  vaddr : ph.vaddr = 0
  filesz : ph.filesz ≤ ph.memsz
  pos : 0 < ph.memsz
  small : ph.memsz + 3 * PGSIZE < KERNBASE
  inside : ph.off + ph.filesz ≤ file.length

theorem loadSegs_ends (hfile : file.length < 2 ^ 32) :
    ∀ (n off sz : Nat) (img : Nat → UInt8) (s : St) (lab : Nat → Label),
    Space L pool s0 lab0 d sz img s lab →
    Ends (fun _ => False) (fun r s' => ∃ lab', Built L pool s0 lab0 d s' lab' ∧
      ∀ sz', r = some sz' → Space L pool s0 lab0 d sz' ((phdrs file n off).foldl (segment file) img) s' lab')
      (loadSegs L file d n off sz s) := by
  intro n
  induction n with
  | zero =>
    intro off sz img s lab h
    refine .ret ⟨lab, h.toBuilt, fun sz' hs => ?_⟩
    obtain rfl := Option.some.inj hs
    exact h
  | succ n ih =>
    intro off sz img s lab h
    -- whatever was built so far, `goto bad` leaves it to be freed
    have hbad : ∀ {s1 : St} {lab1 : Nat → Label}, Built L pool s0 lab0 d s1 lab1 →
        Ends (fun _ => False) (fun (r : Option Nat) s' => ∃ lab', Built L pool s0 lab0 d s' lab' ∧
          ∀ sz', r = some sz' → Space L pool s0 lab0 d sz' ((phdrs file (n + 1) off).foldl (segment file) img) s' lab')
          ((pure none : M (Option Nat)) s1) := fun hb => .ret ⟨_, hb, fun sz' hs => by cases hs⟩
    rw [loadSegs]
    cases hr : readi file off sizeofProghdr with
    | none => exact hbad h.toBuilt
    | some b =>
      have hph : (phdrs file (n + 1) off).foldl (segment file) img =
          (phdrs file n (add32 off sizeofProghdr)).foldl (segment file) (segment file img (proghdr b)) := by
        rw [phdrs, hr, List.foldl_cons]
        rfl
      refine .ite (fun _ => hbad h.toBuilt) fun _ => ?_
      have hvaddr : (proghdr b).vaddr < 2 ^ 32 := getLE_lt _ _ 4
      have hmemsz : (proghdr b).memsz < 2 ^ 32 := getLE_lt _ _ 4
      have hoff : (proghdr b).off < 2 ^ 32 := getLE_lt _ _ 4
      generalize proghdr b = ph at *
      refine .ite (fun hty => ?_) fun hty => .ite (fun _ => hbad h.toBuilt) fun hfm =>
        .ite (fun _ => hbad h.toBuilt) fun hwrap => ?_
      · rw [hph, segment, if_neg hty]; exact ih _ sz img s lab h
      · have hadd : add32 ph.vaddr ph.memsz = ph.vaddr + ph.memsz := by
          unfold add32 at hwrap ⊢; omega
        rw [hadd]
        refine (h.allocuvm (ph.vaddr + ph.memsz)).bind ?_
        rintro r s1 ⟨lab1, hb1, hs1⟩
        refine .ite (fun _ => hbad hb1) fun hr0 => .ite (fun _ => hbad hb1) fun hal => ?_
        obtain ⟨hle, -, hsp1⟩ := hs1 hr0
        refine (hsp1.loaduvm hfile hoff (not_not.1 hal) (by omega)).bind ?_
        rintro ok s2 ⟨ht2, -, hs2⟩
        refine .ite (fun hok => ?_) fun _ => hbad (hsp1.toBuilt.touches ht2)
        rw [hph, segment, if_pos (not_not.1 hty)]
        exact ih _ r _ s2 lab1 (hs2 hok)

/-- A program of one segment is loaded if there are pages for it. -/
theorem loadSegs_room (hfile : file.length < 2 ^ 32) (h : Space L pool s0 lab0 d 0 img s lab)
    (hr : Room s d (pgs (proghdr b).memsz + more)) (hread : readi file off sizeofProghdr = some b)
    (hfull : b.length = sizeofProghdr) (hph : OneSegment file (proghdr b)) :
    Ends (fun _ => True) (fun r s' => r = some (proghdr b).memsz ∧ Room s' d more) (loadSegs L file d 1 off 0 s) := by
  rw [loadSegs, hread]
  refine .ite (fun hno => (hno hfull).elim) fun _ => ?_
  obtain ⟨hty, hva, hfm, hpos, hsz, hfit⟩ := hph
  generalize proghdr b = ph at *
  have hadd : add32 ph.vaddr ph.memsz = ph.memsz := by
    unfold add32; unfold KERNBASE at hsz; omega
  refine .ite (fun hno => (hno hty).elim) fun _ => .ite (fun hlt => absurd hlt (not_lt.2 hfm)) fun _ =>
    .ite (fun hlt => ?_) fun _ => ?_
  · rw [hva] at hlt; exact absurd hlt (not_lt_zero)
  rw [hadd]
  have halloc := (h.allocuvm ph.memsz).and (allocuvm_room (L := L) (s := s) hr zero_le (by omega))
  refine (halloc.err fun _ _ => trivial).bind ?_
  rintro r s1 ⟨⟨lab1, -, hs1⟩, rfl, hr1⟩
  refine .ite (fun h0 => absurd h0 (ne_of_gt hpos)) fun hr0 =>
    .ite (fun hal => (hal (by rw [hva]; rfl)).elim) fun _ => ?_
  obtain ⟨-, -, hsp1⟩ := hs1 hr0
  have hload := hsp1.loaduvm hfile (show ph.off < 2 ^ 32 by omega) (show ph.vaddr % PGSIZE = 0 by rw [hva]; rfl)
    (show ph.vaddr + ph.filesz ≤ ph.memsz by omega)
  refine (hload.err fun _ hf => hf.elim).bind ?_
  rintro ok s2 ⟨ht, hok, -⟩
  rw [hok hfit]
  exact .ret ⟨rfl, ht.room hr1⟩

end Xv6.Exec
