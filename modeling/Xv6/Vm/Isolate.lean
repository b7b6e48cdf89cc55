/-
Address spaces are isolated. Between the calls of `Xv6.Vm.Conserve` user code stores to its own pages whenever it
likes. What is done in one directory, by its user or by the kernel, leaves the user pages of every other one mapped
as they were, with the same bytes.
-/
import Xv6.Vm.Copyout

namespace Xv6.Vm

open Base

inductive Act
  | call (c : Call) (fails : List Bool)
  | store (d a : Nat) (b : UInt8)  -- by user code that runs in `d`

/-- The directory that is worked on. -/
def Act.on : Act → Option Nat
  | .call c _ => c.target
  | .store d _ _ => some d

/-- Sizes given to `deallocuvm` are of the user part. -/
def Act.User : Act → Prop
  | .call c _ => c.User
  | .store _ _ _ => True

/-- A call, or a store that the hardware lets through. -/
def sysStep (L : Link) (x : Sys) : Act → Option Sys
  | .call c fails => step L x (c, fails)
  | .store d a b =>
    let f := frame (word x.st d (a / PGSIZE))
    if d ∈ x.dirs ∧ a < KERNBASE ∧ Writable x.st d (a / PGSIZE) then
      some { x with st := filled x.st f (Function.update (x.st.mem f) (a % PGSIZE) b) }
    else none

variable {L : Link} {x : Sys} {lab : Nat → Label} {d : Nat}

section

variable {pages : List Nat} {x' : Sys} {v : Nat} {a : Act}

/-- A step keeps the owners of pages, and what is not worked on. -/
theorem sysStep_spec (hg : Good L (· ∈ pages) x.st lab) (hh : ∀ f, lab f ≠ .hand)
    (hdirs : ∀ d, lab d = .dir ↔ d ∈ x.dirs) (hu : a.User) (hs : sysStep L x a = some x') :
    Inv L pages x' ∧ Apart lab a.on x x' := by
  cases a with
  | call c fails =>
    obtain ⟨hon, hrun⟩ := step_eq_some.1 hs
    have h := Call.run_spec hg hh hdirs c fails hon hu
    rw [hrun] at h
    exact h
  | store d a b =>
    obtain ⟨⟨hd, ha, hw⟩, ⟨⟩⟩ := Option.ite_none_right_eq_some.1 hs
    have hl := (hg.user d (a / PGSIZE) _).2 ⟨(hdirs d).2 hd, Nat.div_lt_of_lt_mul ha, hw.1, rfl⟩
    refine ⟨⟨lab, hg.fillOther (hl ▸ Label.not_meta_user _ _), hh, hdirs⟩, fun f _ hon => ?_, fun _ hd _ => hd⟩
    refine filled_mem_of_ne fun he => (hon d rfl).2 ?_
    rw [he, hl]
    rfl

theorem sysStep_on (hs : sysStep L x a = some x') (h : a.on = some d) : d ∈ x.dirs := by
  cases a with
  | call c fails =>
    have hon := (step_eq_some.1 hs).1
    cases c <;> cases h <;> exact hon
  | store d a b => cases h; exact (Option.ite_none_right_eq_some.1 hs).1.1

theorem Apart.samePage (h : Apart lab a.on x x') (hg : Good L (· ∈ pages) x.st lab)
    (hon : ∀ d, a.on = some d → lab d = .dir) (hd : lab d = .dir) (hne : a.on ≠ some d) (hv : v < UPAGES) :
    SamePage x.st x'.st d v := by
  have hmem : ∀ f, (lab f).base = some d → x'.st.mem f = x.st.mem f := by
    intro f hb
    refine h.mem f (fun he => ?_) fun d' hd' => ⟨fun he => ?_, fun he => hne (hd'.trans (he.symm.trans hb))⟩
    · rw [he] at hb; cases hb
    · rw [he, hon d' hd'] at hb; cases hb
  have hdir : x'.st.mem d = x.st.mem d := by
    refine h.mem d (by rw [hd]; decide) fun d' hd' => ⟨fun he => hne (he ▸ hd'), fun he => ?_⟩
    rw [hd] at he
    cases he
  have hword := hg.word_eq hd hdir (fun f i hf => hmem f (by rw [hf]; rfl)) v (page_lt hv)
  refine ⟨umap_congr hword, fun w hw => hmem _ ?_⟩
  rw [user_of_umap hg hd hv hw]
  rfl

theorem SamePage.trans {s s' s'' : St} (h : SamePage s s' d v) (h' : SamePage s' s'' d v) : SamePage s s'' d v :=
  ⟨h'.1.trans h.1, fun w hw => (h'.2 w (h.1.trans hw)).trans (h.2 w hw)⟩

theorem sysStep_samePage (hi : Inv L pages x) (hu : a.User) (hs : sysStep L x a = some x') (hd : d ∈ x.dirs)
    (hne : a.on ≠ some d) :
    Inv L pages x' ∧ d ∈ x'.dirs ∧ ∀ v < UPAGES, SamePage x.st x'.st d v := by
  obtain ⟨lab, hg, hh, hdirs⟩ := hi
  obtain ⟨hi', h⟩ := sysStep_spec hg hh hdirs hu hs
  have hon : ∀ d', a.on = some d' → lab d' = .dir := fun d' h' => (hdirs d').2 (sysStep_on hs h')
  exact ⟨hi', h.dirs d hd hne, fun v hv => h.samePage hg hon ((hdirs d).2 hd) hne hv⟩

end

/-- Whatever the kernel does for other directories and their users store, along any run a directory keeps its user
pages and their bytes until something is done in itself. -/
theorem address_spaces_isolated {L : Link} {pages : List Nat} {x x' : Sys} {d : Nat} (hnd : pages.Nodup)
    (hvalid : ∀ f ∈ pages, L.stop ≤ f * PGSIZE ∧ f * PGSIZE < PHYSTOP)
    (hr : Reach (fun x : Sys => x.st.free = pages ∧ x.dirs = []) (sysStep L) (fun _ a => a.User) x) (hd : d ∈ x.dirs)
    (hr' : Reach (· = x) (sysStep L) (fun _ a => a.User ∧ a.on ≠ some d) x') :
    ∀ v < UPAGES, SamePage x.st x'.st d v := by
  have hi : Inv L pages x := by
    refine hr.inv (fun x h => Reach.inv_sys hnd hvalid (.init h)) fun x a x' ⟨lab, hg, hh, hdirs⟩ hu hs => ?_
    exact (sysStep_spec hg hh hdirs hu hs).1
  suffices h : Inv L pages x' ∧ d ∈ x'.dirs ∧ ∀ v < UPAGES, SamePage x.st x'.st d v from h.2.2
  refine hr'.inv (P := fun x' => Inv L pages x' ∧ d ∈ x'.dirs ∧ ∀ v < UPAGES, SamePage x.st x'.st d v) ?_
    fun y a y' ⟨hi, hd, h⟩ hok hs => ?_
  · rintro y rfl; exact ⟨hi, hd, fun v _ => ⟨rfl, fun _ _ => rfl⟩⟩
  · obtain ⟨hi', hd', h'⟩ := sysStep_samePage hi hok.1 hs hd hok.2
    exact ⟨hi', hd', fun v hv => (h v hv).trans (h' v hv)⟩

/-- A store to a page of the user is done, and read back. -/
theorem sysStep_store {pool : Nat → Prop} {a : Nat} (b : UInt8) (hg : Good L pool x.st lab) (hlab : lab d = .dir)
    (hd : d ∈ x.dirs) (ha : a < KERNBASE) (hw : Writable x.st d (a / PGSIZE)) :
    ∃ x', sysStep L x (.store d a b) = some x' ∧ ubyte x'.st d a = b := by
  have hv : a / PGSIZE < UPAGES := Nat.div_lt_of_lt_mul ha
  have hl := (hg.user d (a / PGSIZE) _).2 ⟨hlab, hv, hw.1, rfl⟩
  have hm : ¬(lab (frame (word x.st d (a / PGSIZE)))).Meta := hl ▸ Label.not_meta_user _ _
  refine ⟨_, if_pos ⟨hd, ha, hw⟩, ?_⟩
  rw [ubyte, (hg.views_fillOther hm hlab).2 _ (page_lt hv), filled_mem_self, Function.update_self]

/-- The process is copied, and the copy stores to its page: the byte is in the copy, and not in the process. -/
theorem address_spaces_isolated_copied : ∃ x x1 x2 d, x.dirs = [0x200] ∧ ubyte x.st 0x200 5 = 0 ∧
    sysStep link x (.call (.copyuvm 0x200 PGSIZE) []) = some x1 ∧ x1.dirs = [d, 0x200] ∧
    sysStep link x1 (.store d 5 7) = some x2 ∧ ubyte x2.st d 5 = 7 ∧ ∀ v < UPAGES, SamePage x.st x2.st 0x200 v := by
  obtain ⟨x0, s, lab, f, hstep0, hstep1, h⟩ := boot_process
  have hr0 : Reach (fun x : Sys => x.st.free = pool ∧ x.dirs = []) (sysStep link) (fun _ a => a.User) boot :=
    .init ⟨rfl, rfl⟩
  have hr1 := hr0.step (a := Act.call .setupkvm []) trivial hstep0
  have hr := hr1.step (a := Act.call (.allocuvm 0x200 0 PGSIZE) []) trivial hstep1
  obtain ⟨d, lab', s', hcopy, hfree, hg', hd', hw⟩ := h.copied
  have hne : (0x200 : Nat) ≠ d := fun he => by
    rw [← he, h.dir] at hfree; cases hfree
  have hstep2 : sysStep link ⟨s, [0x200]⟩ (.call (.copyuvm 0x200 PGSIZE) []) = some ⟨s', [d, 0x200]⟩ := by
    refine step_eq_some.2 ⟨List.mem_singleton.2 rfl, ?_⟩
    show (copyuvm link 0x200 PGSIZE { s with fails := [] }).map (fun r => ((), Sys.mk r.2 (r.1.toList ++ [0x200]))) = _
    rw [show { s with fails := [] } = s by rw [← h.room.fails], hcopy]
    rfl
  obtain ⟨x2, hstep3, hbyte⟩ := sysStep_store (L := link) (x := ⟨s', [d, 0x200]⟩) (a := 5) 7 hg' hd' (.head _)
    (by decide) hw
  have hc0 : Reach (· = (⟨s, [0x200]⟩ : Sys)) (sysStep link) (fun _ a => a.User ∧ a.on ≠ some 0x200) ⟨s, [0x200]⟩ :=
    .init rfl
  have hc1 := hc0.step (a := Act.call (.copyuvm 0x200 PGSIZE) []) ⟨trivial, fun he => by cases he⟩ hstep2
  have hc2 := hc1.step (a := Act.store d 5 7) ⟨trivial, fun he => hne (Option.some.inj he).symm⟩ hstep3
  exact ⟨_, _, x2, d, rfl, h.ubyte_zero 5 (by decide), hstep2, rfl, hstep3, hbyte,
    address_spaces_isolated List.nodup_range' pool_valid hr (List.mem_singleton.2 rfl) hc2⟩

end Xv6.Vm
