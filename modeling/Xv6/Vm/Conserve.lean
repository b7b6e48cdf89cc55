/-
Any number of address spaces, made, grown, shrunk, copied and freed in any order, with `kalloc` failing wherever
it likes. Between two calls every page is on the free list once and has no owner, or it is off the list and has
exactly one.
-/
import Mathlib.Data.List.Nodup
import Xv6.Base.Run
import Xv6.Vm.Grow

namespace Xv6.Vm

open Base
open Function (update update_self update_of_ne)

/-! ## Calls -/

/-- Memory, and the directories that were made and not freed. -/
structure Sys where
  st : St
  dirs : List Nat

inductive Call
  | setupkvm
  | allocuvm (pgdir oldsz newsz : Nat)
  | deallocuvm (pgdir oldsz newsz : Nat)
  | copyuvm (pgdir sz : Nat)
  | freevm (pgdir : Nat)

/-- The call is made on a directory that there is. -/
def Call.On (dirs : List Nat) : Call → Prop
  | .setupkvm => True
  | .allocuvm d _ _ => d ∈ dirs
  | .deallocuvm d _ _ => d ∈ dirs
  | .copyuvm d _ => d ∈ dirs
  | .freevm d => d ∈ dirs

/-- Sizes given to `deallocuvm` are of the user part. -/
def Call.User : Call → Prop
  | .deallocuvm _ oldsz _ => oldsz ≤ KERNBASE
  | _ => True

/-- The directory that is worked on; a new one is not there yet. -/
def Call.target : Call → Option Nat
  | .allocuvm d _ _ | .deallocuvm d _ _ | .freevm d => some d
  | .setupkvm | .copyuvm _ _ => none

instance (dirs : List Nat) (c : Call) : Decidable (c.On dirs) := by
  cases c <;> unfold Call.On <;> infer_instance

/-- A call, with the calls of `kalloc` that fail in it. -/
def Call.run (L : Link) (fails : List Bool) (c : Call) : Cmd Sys Panic Unit := fun x =>
  let s := { x.st with fails := fails }
  match c with
  | .setupkvm => (Vm.setupkvm L s).map fun r => ((), ⟨r.2, r.1.toList ++ x.dirs⟩)
  | .allocuvm d oldsz newsz => (Vm.allocuvm L d oldsz newsz s).map fun r => ((), ⟨r.2, x.dirs⟩)
  | .deallocuvm d oldsz newsz => (Vm.deallocuvm L d oldsz newsz s).map fun r => ((), ⟨r.2, x.dirs⟩)
  | .copyuvm d sz => (Vm.copyuvm L d sz s).map fun r => ((), ⟨r.2, r.1.toList ++ x.dirs⟩)
  | .freevm d => (Vm.freevm L d s).map fun r => ((), ⟨r.2, x.dirs.filter (· ≠ d)⟩)

/-- A call that returns. -/
def step (L : Link) (x : Sys) (a : Call × List Bool) : Option Sys :=
  if a.1.On x.dirs then
    match a.1.run L a.2 x with
    | .ok r => some r.2
    | .error _ => none
  else none

variable {L : Link} {x : Sys}

theorem step_eq_some {x' : Sys} {c : Call} {fails : List Bool} :
    step L x (c, fails) = some x' ↔ c.On x.dirs ∧ c.run L fails x = .ok ((), x') := by
  rw [step, Option.ite_none_right_eq_some]
  refine and_congr_right fun _ => ?_
  cases c.run L fails x <;> simp [Prod.ext_iff]

/-! ## Owners -/

inductive Owner
  | dir (d : Nat)
  | table (d i : Nat)
  | user (d v : Nat)
  deriving DecidableEq

/-- The directory that the owner belongs to. -/
def Owner.pgdir : Owner → Nat
  | .dir d => d
  | .table d _ => d
  | .user d _ => d

/-- The page is the directory's own, that of one of its tables, or behind one of its present user entries. -/
def Owns (x : Sys) (f : Nat) : Owner → Prop
  | .dir d => d ∈ x.dirs ∧ f = d
  | .table d i => d ∈ x.dirs ∧ i < NPDENTRIES ∧ tab x.st d i = some f
  | .user d v => d ∈ x.dirs ∧ v < UPAGES ∧ present (word x.st d v) ∧ frame (word x.st d v) = f

/-- The free list and the entries agree with labels, and nothing is in hand. -/
def Inv (L : Link) (pages : List Nat) (x : Sys) : Prop :=
  ∃ lab, Good L (· ∈ pages) x.st lab ∧ (∀ f, lab f ≠ .hand) ∧ ∀ d, lab d = .dir ↔ d ∈ x.dirs

variable {d : Nat} {s : St} {lab : Nat → Label}

section

variable {f : Nat} {s' : St} {lab' : Nat → Label}

/-- A function that works on one directory takes nothing into its hands for good, and makes no directory. -/
theorem Keeps.rest (h : Keeps d s lab s' lab') (hh : ∀ f, lab f ≠ .hand) :
    (∀ f, lab' f ≠ .hand) ∧ ∀ f, lab' f = .dir ↔ lab f = .dir := by
  have hcases : ∀ f, lab' f = lab f ∨ (lab f ≠ .dir ∧ lab' f ≠ .dir ∧ lab' f ≠ .hand) := by
    intro f
    by_cases hfd : f = d
    · exact .inl (by rw [hfd, h.dir])
    by_cases hf : lab f = .free ∨ (lab f).base = some d
    · refine .inr ⟨?_, ?_⟩
      · rintro he; rw [he] at hf; simp [Label.base] at hf
      · rcases h.moved f hfd hf with h1 | h1
        · rw [h1]; simp
        · constructor <;> intro he <;> rw [he] at h1 <;> cases h1
    · push Not at hf
      exact .inl (h.label f hf.1 hfd hf.2)
  refine ⟨fun f => ?_, fun f => ?_⟩
  · rcases hcases f with h1 | h1
    · rw [h1]; exact hh f
    · exact h1.2.2
  · rcases hcases f with h1 | h1
    · rw [h1]
    · exact iff_of_false h1.2.1 h1.1

end

/-- Pages in use that are not of the directory worked on do not change, and no other directory goes. -/
structure Apart (lab : Nat → Label) (on : Option Nat) (x x' : Sys) : Prop where
  mem : ∀ f, lab f ≠ .free → (∀ d, on = some d → f ≠ d ∧ (lab f).base ≠ some d) → x'.st.mem f = x.st.mem f
  dirs : ∀ d ∈ x.dirs, on ≠ some d → d ∈ x'.dirs

section

variable {pages : List Nat}

/-- A call never ends in the panic of `kfree`, nor does it go on for ever. -/
def Safe (e : Panic) : Prop := e ≠ .kfree ∧ e ≠ .spin

/-- What a call keeps: the owners of pages, and what is not worked on. -/
theorem Call.run_spec (hg : Good L (· ∈ pages) x.st lab) (hh : ∀ f, lab f ≠ .hand)
    (hdirs : ∀ d, lab d = .dir ↔ d ∈ x.dirs) (c : Call) (fails : List Bool) (hon : c.On x.dirs) (hu : c.User) :
    Ends Safe (fun _ x' => Inv L pages x' ∧ Apart lab c.target x x') (c.run L fails x) := by
  have hg0 : Good L (· ∈ pages) { x.st with fails := fails } lab := hg.of_mem rfl fun _ _ => rfl
  -- a directory is added, which was on the free list
  have hnew : ∀ {d : Nat} {s' : St} {lab' : Nat → Label}, lab d = .free → Good L (· ∈ pages) s' lab' →
      Grows d { x.st with fails := fails } (update lab d .dir) s' lab' →
      Inv L pages ⟨s', d :: x.dirs⟩ ∧ Apart lab none x ⟨s', d :: x.dirs⟩ := by
    intro d s' lab' hfree hg' hgr
    have hh' : ∀ f, update lab d .dir f ≠ .hand := fun f => by
      by_cases he : f = d
      · rw [he, update_self]; decide
      · rw [update_of_ne he]; exact hh f
    obtain ⟨h1, h2⟩ := (hgr.keeps (update_self ..)).rest hh'
    refine ⟨⟨lab', hg', h1, fun f => (h2 f).trans ?_⟩, fun f hf _ => ?_, fun _ hd _ => .tail _ hd⟩
    · rw [List.mem_cons, ← hdirs]
      by_cases he : f = d
      · rw [he, update_self]; exact iff_of_true rfl (.inl rfl)
      · rw [update_of_ne he, or_iff_right he]
    · have hfd : f ≠ d := fun he => hf (he ▸ hfree)
      have hlab : update lab d .dir f = lab f := update_of_ne hfd ..
      refine hgr.mem f (by rwa [hlab]) hfd fun i hi => ?_
      rw [hlab] at hi
      exact hg.base_ne (by rw [hfree]; decide : lab d ≠ .dir) f (by rw [hi]; rfl)
  have hkeep : ∀ {d : Nat} {s' : St} {lab' : Nat → Label}, Good L (· ∈ pages) s' lab' →
      Keeps d { x.st with fails := fails } lab s' lab' → Inv L pages ⟨s', x.dirs⟩ ∧
      Apart lab (some d) x ⟨s', x.dirs⟩ := by
    intro d s' lab' hg' hk
    obtain ⟨h1, h2⟩ := hk.rest hh
    exact ⟨⟨lab', hg', h1, fun f => (h2 f).trans (hdirs f)⟩, fun f hf hon => hk.mem f hf (hon d rfl).1 (hon d rfl).2,
      fun _ hd _ => hd⟩
  have hsame : ∀ {s' : St}, Good L (· ∈ pages) s' lab → (∀ f, lab f ≠ .free → s'.mem f = x.st.mem f) →
      Inv L pages ⟨s', x.dirs⟩ ∧ Apart lab none x ⟨s', x.dirs⟩ := fun hg' hm =>
    ⟨⟨lab, hg', hh, hdirs⟩, fun f hf _ => hm f hf, fun _ hd _ => hd⟩
  cases c with
  | setupkvm =>
    refine (setupkvm_ends hg0).map fun r s' h => ?_
    rcases h with ⟨rfl, hg', hm⟩ | ⟨d, lab', rfl, hfree, hg', hgr, -⟩
    · exact hsame hg' hm
    · exact hnew hfree hg' hgr
  | allocuvm d oldsz newsz =>
    have hd := (hdirs d).2 hon
    refine ((allocuvm_ends hg0 hd oldsz newsz).err fun e h => ?_).map fun r s' ⟨lab', hg', h⟩ => ?_
    · rw [h.1]; exact ⟨by decide, by decide⟩
    · rcases h with ⟨-, -, rfl, rfl⟩ | ⟨-, -, rfl, rfl⟩ | ⟨-, -, ⟨-, hun⟩ | ⟨-, hadd⟩⟩
      · exact hkeep hg' (.refl ..)
      · exact hkeep hg' (.refl ..)
      · exact hkeep hg' hun.keeps
      · exact hkeep hg' (hadd.grows.keeps hd)
  | deallocuvm d oldsz newsz =>
    have hd := (hdirs d).2 hon
    exact (deallocuvm_ends hg0 hd hu newsz).map fun r s' ⟨_, hg', hs⟩ =>
      hkeep hg' (hs.undone hd (pgs_le_upages hu)).keeps
  | copyuvm d sz =>
    refine ((copyuvm_ends hg0 ((hdirs d).2 hon) sz).err fun e h => ?_).map fun r s' h => ?_
    · obtain ⟨u, -, ⟨rfl, -⟩ | ⟨rfl | rfl, -⟩⟩ := h <;> exact ⟨by decide, by decide⟩
    · rcases h with ⟨rfl, hg', hm⟩ | ⟨d, lab', rfl, hfree, hg', hgr, -⟩
      · exact hsame hg' hm
      · exact hnew hfree hg' hgr
  | freevm d =>
    have hd := (hdirs d).2 hon
    refine (freevm_ends hg0 hd).map fun _ s' ⟨hg', hm⟩ => ⟨⟨gone lab d, hg', fun f => ?_, fun f => ?_⟩,
      fun f _ hf => hm f (hf d rfl).1 (hf d rfl).2, fun d' hd' hne => ?_⟩
    · unfold gone
      split
      · decide
      · exact hh f
    · rw [List.mem_filter, ← hdirs, decide_eq_true_iff]
      unfold gone
      split
      · next h =>
        refine iff_of_false (by decide) ?_
        rintro ⟨h1, h2⟩
        rcases h with h | h
        · exact h2 h
        · rw [h1] at h; cases h
      · next h => exact ⟨fun hf => ⟨hf, fun he => h (.inl he)⟩, fun hf => hf.1⟩
    · exact List.mem_filter.2 ⟨hd', decide_eq_true fun he => hne (congrArg some he.symm)⟩

theorem Call.run_inv (hi : Inv L pages x) (c : Call) (fails : List Bool) (hon : c.On x.dirs) (hu : c.User) :
    Ends Safe (fun _ x' => Inv L pages x') (c.run L fails x) := by
  obtain ⟨lab, hg, hh, hdirs⟩ := hi
  exact (Call.run_spec hg hh hdirs c fails hon hu).post fun _ _ h => h.1

/-- The owner that a label gives the page. -/
def Label.owner (f : Nat) : Label → Option Owner
  | .dir => some (.dir f)
  | .table d i => some (.table d i)
  | .user d v => some (.user d v)
  | _ => none

theorem owns_iff (hg : Good L (· ∈ pages) x.st lab) (hdirs : ∀ d, lab d = .dir ↔ d ∈ x.dirs) (f : Nat) (o : Owner) :
    Owns x f o ↔ (lab f).owner f = some o := by
  cases o with
  | dir d =>
    show (d ∈ x.dirs ∧ f = d) ↔ _
    rw [← hdirs]
    constructor
    · rintro ⟨h, rfl⟩; rw [h]; rfl
    · intro h
      cases hl : lab f <;> rw [hl] at h <;> cases h
      exact ⟨hl, rfl⟩
  | table d i =>
    show (d ∈ x.dirs ∧ i < NPDENTRIES ∧ tab x.st d i = some f) ↔ _
    rw [← hdirs, ← hg.table]
    constructor
    · intro h; rw [h]; rfl
    · intro h
      cases hl : lab f <;> rw [hl] at h <;> cases h
      rfl
  | user d v =>
    show (d ∈ x.dirs ∧ v < UPAGES ∧ present (word x.st d v) ∧ frame (word x.st d v) = f) ↔ _
    rw [← hdirs, ← hg.user]
    constructor
    · intro h; rw [h]; rfl
    · intro h
      cases hl : lab f <;> rw [hl] at h <;> cases h
      rfl

theorem Inv.conserved (hi : Inv L pages x) (f : Nat) (hf : f ∈ pages) :
    (x.st.free.count f = 1 ∧ ∀ o, ¬Owns x f o) ∨ (f ∉ x.st.free ∧ ∃! o, Owns x f o) := by
  obtain ⟨lab, hg, hh, hdirs⟩ := hi
  have hout := (hg.inside f).2 hf
  have hhand := hh f
  simp only [hg.free, owns_iff hg hdirs]
  cases hl : lab f with
  | outside => exact (hout hl).elim
  | hand => exact (hhand hl).elim
  | free => exact .inl ⟨List.count_eq_one_of_mem hg.nodup ((hg.free f).2 hl), fun o h => by cases h⟩
  | dir => exact .inr ⟨by simp, .dir f, rfl, fun o h => (Option.some.inj h).symm⟩
  | table d i => exact .inr ⟨by simp, .table d i, rfl, fun o h => (Option.some.inj h).symm⟩
  | user d v => exact .inr ⟨by simp, .user d v, rfl, fun o h => (Option.some.inj h).symm⟩

/-- Everything that belonged to the directory is on the free list. -/
theorem Inv.freevm (hi : Inv L pages x) {d : Nat} (hd : d ∈ x.dirs) (fails : List Bool) :
    Ends (fun _ => False) (fun _ x' => ∀ f o, o.pgdir = d → Owns x f o → f ∈ x'.st.free)
      ((Call.freevm d).run L fails x) := by
  obtain ⟨lab, hg, hh, hdirs⟩ := hi
  have hg0 : Good L (· ∈ pages) { x.st with fails := fails } lab := hg.of_mem rfl fun _ _ => rfl
  refine (freevm_ends hg0 ((hdirs d).2 hd)).map fun _ s' ⟨hg', _⟩ f o ho hown => (hg'.free f).2 (if_pos ?_)
  rw [owns_iff hg hdirs] at hown
  cases hl : lab f <;> rw [hl] at hown <;> cases hown
  · exact .inl ho
  · exact .inr (congrArg some ho)
  · exact .inr (congrArg some ho)

theorem Reach.inv_sys (hnd : pages.Nodup) (hvalid : ∀ f ∈ pages, L.stop ≤ f * PGSIZE ∧ f * PGSIZE < PHYSTOP)
    (hr : Reach (fun x : Sys => x.st.free = pages ∧ x.dirs = []) (step L) (fun _ a => a.1.User) x) : Inv L pages x := by
  refine hr.inv ?_ fun x a x' hi hu hs => ?_
  · rintro ⟨s, dirs⟩ ⟨hfree, hdirs⟩
    refine ⟨fun f => if f ∈ pages then .free else .outside, ⟨fun f => ?_, hvalid, ?_, fun f => ?_, fun d i t => ?_,
      fun d v f => ?_⟩, fun f => ?_, fun d => ?_⟩
    · by_cases h : f ∈ pages <;> simp [h]
    · exact hfree ▸ hnd
    · rw [show s.free = pages from hfree]
      by_cases h : f ∈ pages <;> simp [h]
    · by_cases h : t ∈ pages <;> by_cases h' : d ∈ pages <;> simp [h, h']
    · by_cases h : f ∈ pages <;> by_cases h' : d ∈ pages <;> simp [h, h']
    · by_cases h : f ∈ pages <;> simp [h]
    · rw [show dirs = [] from hdirs]
      by_cases h : d ∈ pages <;> simp [h]
  · unfold step at hs
    split at hs
    · next hon =>
      have h := Call.run_inv hi a.1 a.2 hon hu
      cases hrun : a.1.run L a.2 x with
      | error e => rw [hrun] at hs; cases hs
      | ok r => rw [hrun] at hs h; cases hs; exact h
    · cases hs

end

/-- In every run of the calls, whatever `kalloc` does, every page is free or has one owner, `kfree` does not
panic, and a directory that is freed leaves nothing behind. -/
theorem pages_conserved {L : Link} {pages : List Nat} {x : Sys} (hnd : pages.Nodup)
    (hvalid : ∀ f ∈ pages, L.stop ≤ f * PGSIZE ∧ f * PGSIZE < PHYSTOP)
    (hr : Reach (fun x : Sys => x.st.free = pages ∧ x.dirs = []) (step L) (fun _ a => a.1.User) x) :
    (∀ f ∈ pages, (x.st.free.count f = 1 ∧ ∀ o, ¬Owns x f o) ∨ (f ∉ x.st.free ∧ ∃! o, Owns x f o)) ∧
    (∀ (c : Call) fails, c.On x.dirs → c.User → Ends Safe (fun _ _ => True) (c.run L fails x)) ∧
    ∀ d ∈ x.dirs, ∀ fails, Ends (fun _ => False) (fun _ x' => ∀ f o, o.pgdir = d → Owns x f o → f ∈ x'.st.free)
      ((Call.freevm d).run L fails x) := by
  have hi := Reach.inv_sys hnd hvalid hr
  refine ⟨hi.conserved, fun c fails hon hu => ?_, fun d hd fails => hi.freevm hd fails⟩
  exact (Call.run_inv hi c fails hon hu).post fun _ _ _ => trivial

/-! ## A machine -/

/-- The pages that are free at first. -/
def pool : List Nat := List.range' 0x200 3000

def boot : Sys := ⟨⟨fun _ _ => 0, pool, []⟩, []⟩

theorem pool_valid : ∀ f ∈ pool, link.stop ≤ f * PGSIZE ∧ f * PGSIZE < PHYSTOP := by
  intro f hf
  have h := List.mem_range'_1.1 hf
  show 0x102000 ≤ f * 0x1000 ∧ f * 0x1000 < 0xE000000
  omega

section

variable {more : Nat} {rest : List Nat}

/-- The first directory, with the kernel's entries and no tables for the user, when there are pages enough. -/
theorem setupkvm_first (hnd : (d :: rest).Nodup)
    (hvalid : ∀ f ∈ d :: rest, L.stop ≤ f * PGSIZE ∧ f * PGSIZE < PHYSTOP) (hlen : NPDENTRIES + more ≤ rest.length)
    (hfree : x.st.free = d :: rest) (hdirs : x.dirs = []) :
    ∃ s lab, step L x (.setupkvm, []) = some ⟨s, [d]⟩ ∧ Good L (· ∈ d :: rest) s lab ∧ lab d = .dir ∧ Room s d more ∧
      (∀ u < 1024 * 1024, word s d u = kentry (kmap L) u) ∧ ∀ i < UPAGES / 1024, tab s d i = none := by
  obtain ⟨lab, hg, -, -⟩ := Reach.inv_sys hnd hvalid (.init ⟨hfree, hdirs⟩)
  have hg0 : Good L (· ∈ d :: rest) { x.st with fails := [] } lab := hg.of_mem rfl fun _ _ => rfl
  obtain ⟨r, s, hs, h⟩ := (setupkvm_ends hg0).exists_ok
  have hroom := setupkvm_room (L := L) (s := { x.st with fails := [] }) rfl hfree (hfree ▸ hvalid) (hfree ▸ hnd) hlen
  rw [hs] at hroom
  obtain ⟨rfl, hroom, htab⟩ := hroom
  rcases h with ⟨h, -⟩ | ⟨d', lab', h, -, hg', hgr, hw⟩
  · cases h
  · obtain rfl := Option.some.inj h
    refine ⟨s, lab', step_eq_some.2 ⟨trivial, ?_⟩, hg', hgr.dir (update_self ..), hroom, hw, htab⟩
    show (setupkvm L { x.st with fails := [] }).map (fun r => ((), Sys.mk r.2 (r.1.toList ++ x.dirs))) = _
    rw [hs, hdirs]
    rfl

end

theorem pool_eq : pool = 0x200 :: List.range' 0x201 2999 := List.range'_succ ..

theorem boot_setupkvm : ∃ s lab, step link boot (.setupkvm, []) = some ⟨s, [0x200]⟩ ∧ Good link (· ∈ pool) s lab ∧
    lab 0x200 = .dir ∧ Room s 0x200 1900 ∧ (∀ u < 1024 * 1024, word s 0x200 u = kentry (kmap link) u) ∧
    ∀ i < UPAGES / 1024, tab s 0x200 i = none := by
  rw [pool_eq]
  exact setupkvm_first (pool_eq ▸ List.nodup_range') (pool_eq ▸ pool_valid)
    (by rw [List.length_range']; decide) pool_eq rfl

/-- A directory with the kernel's part and one page of the user, `f`, and pages that are left for more. -/
structure Process (s : St) (lab : Nat → Label) (f : Nat) : Prop where
  good : Good link (· ∈ pool) s lab
  dir : lab 0x200 = .dir
  room : Room s 0x200 1899
  page : word s 0x200 0 = f * PGSIZE ||| (PTE_W ||| PTE_U) ||| PTE_P
  zero : s.mem f = zeroPage
  kernel : ∀ u, 0 < u → u < 1024 * 1024 → word s 0x200 u = kentry (kmap link) u

theorem boot_process : ∃ x s lab f, step link boot (.setupkvm, []) = some x ∧
    step link x (.allocuvm 0x200 0 PGSIZE, []) = some ⟨s, [0x200]⟩ ∧ Process s lab f := by
  obtain ⟨s0, lab0, hstep, hg, hd, hroom, hw, -⟩ := boot_setupkvm
  have hone : pgs PGSIZE = 1 := by decide
  have hzero : word s0 0x200 0 = 0 := (hw 0 (by decide)).trans (by decide)
  have hroom1 : Room s0 0x200 (pgs PGSIZE - pgs 0 + 1899) := hroom
  have hok : Ends (fun _ => False) _ (allocuvm link 0x200 0 PGSIZE s0) :=
    ((allocuvm_ends hg hd 0 PGSIZE).and (allocuvm_room hroom1 (by decide) (by decide))).err
      fun e ⟨⟨_, _, u, _, hu, hp⟩, _⟩ => by
        obtain rfl : u = 0 := by omega
        rw [hzero] at hp
        exact not_present_zero hp
  obtain ⟨r, s, hrun, ⟨lab, hg', h⟩, rfl, hroom'⟩ := hok.exists_ok
  rcases h with ⟨h, -⟩ | ⟨-, h, -⟩ | ⟨-, -, ⟨h, -⟩ | ⟨-, h⟩⟩
  · cases h
  · exact absurd h (by decide)
  · cases h
  obtain ⟨f, -, hpage, -, hbytes⟩ := h.fresh 0 (by decide) (by decide)
  refine ⟨_, s, lab, f, hstep, step_eq_some.2 ⟨List.mem_singleton.2 rfl, ?_⟩, hg', h.grows.dir hd, hroom', hpage,
    hbytes, fun u h0 hu => ?_⟩
  · show (allocuvm link 0x200 0 PGSIZE { s0 with fails := [] }).map (fun r => ((), Sys.mk r.2 [0x200])) = _
    rw [show { s0 with fails := [] } = s0 by rw [← hroom.fails], hrun]
    rfl
  · rw [h.same u hu fun hn => by omega, hw u hu]

/-- Page 1 of memory, mapped in the kernel's part, is no page for `kfree`. -/
theorem deallocuvm_kernel (hv : word s d (UPAGES + 1) = 0x1003) :
    deallocuvm L d (KERNBASE + 2 * PGSIZE) (KERNBASE + PGSIZE) s = .error .kfree := by
  have hlt : ¬KERNBASE + 2 * PGSIZE ≤ KERNBASE + PGSIZE := by decide
  have hround : PGROUNDUP (KERNBASE + PGSIZE) = (UPAGES + 1) * PGSIZE := by decide
  have hstop : 1 * PGSIZE < L.stop :=
    (show 1 * PGSIZE < EXTMEM by decide).trans (L.text.trans_le L.data_le)
  have hloop : deallocLoop L d (KERNBASE + 2 * PGSIZE) turns ((UPAGES + 1) * PGSIZE) s = .error .kfree := by
    rw [turns, deallocLoop, if_pos (by decide), bind_ok (walkpgdir_look s d _), PDX_page (by decide), PTX_page]
    cases htab : tab s d ((UPAGES + 1) / 1024) with
    | none => rw [word_none htab] at hv; cases hv
    | some t =>
      rw [word_some htab] at hv
      show (get >>= fun s => _ : M Unit) s = _
      rw [get_bind, hv, if_pos (by decide), if_neg (by decide)]
      exact bind_error (if_pos (.inl hstop))
  rw [deallocuvm, if_neg hlt, hround, bind_error hloop]

theorem pages_conserved_setupkvm : ∃ x : Sys, x.dirs = [0x200] ∧
    (∀ f ∈ pool, (x.st.free.count f = 1 ∧ ∀ o, ¬Owns x f o) ∨ (f ∉ x.st.free ∧ ∃! o, Owns x f o)) ∧
    Ends (fun _ => False) (fun _ x' => ∀ f o, o.pgdir = 0x200 → Owns x f o → f ∈ x'.st.free)
      ((Call.freevm 0x200).run link [] x) := by
  obtain ⟨s, lab, hs, -⟩ := boot_setupkvm
  have hr : Reach (fun x : Sys => x.st.free = pool ∧ x.dirs = []) (step link) (fun _ a => a.1.User) ⟨s, [0x200]⟩ :=
    .step (.init ⟨rfl, rfl⟩) (by exact trivial) hs
  obtain ⟨h1, -, h3⟩ := pages_conserved List.nodup_range' pool_valid hr
  exact ⟨_, rfl, h1, h3 0x200 (List.mem_singleton.2 rfl) []⟩

/-- With sizes above the user part `deallocuvm` frees pages of the kernel, which `kfree` does not take. -/
theorem deallocuvm_kernel_kfree : ∃ x : Sys, ∃ d ∈ x.dirs,
    Reach (fun x : Sys => x.st.free = pool ∧ x.dirs = []) (step link) (fun _ _ => True) x ∧
    (Call.deallocuvm d (KERNBASE + 2 * PGSIZE) (KERNBASE + PGSIZE)).run link [] x = .error .kfree := by
  obtain ⟨s, lab, hs, -, -, -, hw, -⟩ := boot_setupkvm
  refine ⟨_, 0x200, List.mem_singleton.2 rfl, .step (.init ⟨rfl, rfl⟩) trivial hs, ?_⟩
  have hv : word { s with fails := [] } 0x200 (UPAGES + 1) = 0x1003 := (hw (UPAGES + 1) (by decide)).trans (by decide)
  show (deallocuvm link 0x200 (KERNBASE + 2 * PGSIZE) (KERNBASE + PGSIZE) { s with fails := [] }).map _ = _
  rw [deallocuvm_kernel hv]
  rfl

end Xv6.Vm
