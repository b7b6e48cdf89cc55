/-
The last `iput` of an inode without links frees it, if no `iput` reads the count of the entry while another
one is between its `releasesleep` and its `ref--`: the reference that is not going to be used any more is
still counted then, and if both see the other's, nobody frees the inode. The calls are those of `iget`,
`idup` and `iput`, from any state between calls.
-/
import Xv6.Cache.Icache

namespace Xv6.Icache

open Base Fs
open Function (update update_self update_of_ne)

variable {n : Nat} {P R : Type} {s s' : State n P R} {r : R} {e : Fin n} {k : Key}

/-- The steps of `iget`, `idup` and `iput`. -/
def Act.refCall : Act n P R → Prop
  | .iget .. | .idup .. | .iput .. | .next .. => True
  | _ => False

instance : DecidablePred (Act.refCall : Act n P R → Prop)
  | .iget .. | .idup .. | .iput .. | .next .. => .isTrue trivial
  | .ilock .. | .change .. | .readi .. | .writei .. | .iunlock .. | .ialloc .. => .isFalse id

/-- If the step is that of an `iput` that reads the count of an entry, then no other `iput` of the entry is
about to decrease it. -/
def CountsLast (s : State n P R) : Act n P R → Prop
  | .next p _ => ∀ r e, s.pc p = .put r e .count → ∀ q r', s.pc q ≠ .put r' e .drop
  | _ => True

instance [Fintype P] [Fintype R] [DecidableEq R] (s : State n P R) : DecidablePred (CountsLast s)
  | .next _ _ => inferInstanceAs (Decidable (∀ _ _, _ → ∀ _ _, _ ≠ _))
  | .iget .. | .idup .. | .iput .. | .ilock .. | .change .. | .readi .. | .writei .. | .iunlock .. | .ialloc .. =>
    .isTrue trivial

/-- A state in which no process is in a call. -/
def Quiet [Fintype R] (s : State n P R) : Prop := Refs s ∧ (∀ p, s.pc p = .idle) ∧ s.freed = []

/-- An inode that has been truncated and freed. -/
def Gone (d : Dinode) : Prop := d.type = .free ∧ d.size = 0 ∧ ∀ i, d.addrs i = 0

/-- The `iput`s that have freed inode `k`. -/
def freedAs (s : State n P R) (k : Key) : Nat := (s.freed.filter fun x => decide (x.2 = k)).length

/-- A process that has the reference of `r` to `e` is past the test of `iput`. -/
def Past (s : State n P R) (r : R) (e : Fin n) : Prop := ∃ q, s.pc q = .put r e .release ∨ s.pc q = .put r e .drop

/-- What process `p` knows at a point of `iput`; it is in no other call. -/
def Knows (s : State n P R) (p : P) : Pc n R → Prop
  | .put _ e .count | .put _ e .trunc => (s.ent e).valid = true ∧ (s.ent e).di.nlink = 0
  | .put _ e .free => (s.ent e).valid = true ∧ (s.ent e).di.nlink = 0 ∧
    (s.ent e).di.size = 0 ∧ ∀ i, (s.ent e).di.addrs i = 0
  | .put _ e .clear => (p, (s.ent e).key) ∈ s.freed
  | .idle | .put _ _ _ => True
  | _ => False

def Puts (s : State n P R) : Prop := ∀ p, Knows s p (s.pc p)

/-- Inode `k`, of entry `e`, waits for the `iput` that frees it. -/
structure Waits (s : State n P R) (e : Fin n) (k : Key) : Prop where
  key : (s.ent e).key = k
  valid : (s.ent e).valid = true
  nlink : (s.ent e).di.nlink = 0
  ref : ∃ r, s.ptr r = some e ∧ ¬ Past s r e
  freed : ∀ p, (p, k) ∉ s.freed

/-- Inode `k` has been freed, once. -/
structure Done (s : State n P R) (k : Key) : Prop where
  once : freedAs s k = 1
  gone : Gone (s.disk k)
  invalid : ∀ e, 0 < (s.ent e).ref → (s.ent e).key = k → (s.ent e).valid = true → ∃ q r, s.pc q = .put r e .clear

section

variable {p : P} {x : Fin n} {y : Pc n R}

/-- Both states agree on entry `e`, but for the count. -/
structure Keep (s s' : State n P R) (e : Fin n) : Prop where
  key : (s'.ent e).key = (s.ent e).key
  valid : (s'.ent e).valid = (s.ent e).valid
  di : (s'.ent e).di = (s.ent e).di

theorem keep_of_eq (h : s'.ent e = s.ent e) : Keep s s' e := ⟨by rw [h], by rw [h], by rw [h]⟩

theorem Refs.inside_unique [Fintype R] (hr : Refs s) {q : P} (hp : (s.pc p).inside = some e)
    (hq : (s.pc q).inside = some e) :
    q = p := by
  obtain ⟨r, hr1⟩ := hr.inside p e hp
  obtain ⟨r', hr2⟩ := hr.inside q e hq
  exact (Prod.mk.inj (Option.some.inj (hr2.symm.trans hr1))).1

theorem Knows.keep (h : Knows s p y) (hent : ∀ e, y.inside = some e → Keep s s' e)
    (hfreed : ∀ z ∈ s.freed, z ∈ s'.freed) :
    Knows s' p y := by
  cases y with
  | idle => trivial
  | put r e k =>
    cases k with
    | count | trunc | free => have hk := hent e rfl; simp only [Knows, hk.valid, hk.di]; exact h
    | clear => have hk := hent e rfl; simp only [Knows, hk.key]; exact hfreed _ h
    | _ => trivial
  | _ => exact h.elim

theorem iupdate_disk_of_ne (h : (s.ent e).key ≠ k) : (s.iupdate e).disk k = s.disk k := update_of_ne h.symm _ _

theorem freedAs_append (l : List (P × Key)) (z : P × Key) (k : Key) :
    ((l ++ [z]).filter fun x => decide (x.2 = k)).length =
      (l.filter fun x => decide (x.2 = k)).length + if z.2 = k then 1 else 0 := by
  rw [List.filter_append, List.length_append, List.filter_singleton]
  split <;> simp_all

variable [DecidableEq P]

/-- A step of process `p`, which goes on to `y`. -/
theorem Puts.of_step (h : Puts s) (hpc : s'.pc = update s.pc p y)
    (hent : ∀ q e, q ≠ p → (s.pc q).inside = some e → Keep s s' e) (hfreed : ∀ z ∈ s.freed, z ∈ s'.freed)
    (hy : Knows s' p y) : Puts s' := by
  intro q
  by_cases hqp : q = p
  · rwa [hqp, hpc, update_self]
  · rw [hpc, update_of_ne hqp]; exact (h q).keep (fun e => hent q e hqp) hfreed

theorem Waits.of_step (h : Waits s e k) (hpc : s'.pc = update s.pc p y) (hkey : (s'.ent e).key = (s.ent e).key)
    (hvalid : (s'.ent e).valid = (s.ent e).valid) (hnlink : (s'.ent e).di.nlink = (s.ent e).di.nlink)
    (href : ∃ r, s'.ptr r = some e ∧ ¬ Past s r e ∧ y ≠ .put r e .release ∧ y ≠ .put r e .drop)
    (hfreed : ∀ q, (q, k) ∈ s'.freed → (q, k) ∈ s.freed) : Waits s' e k := by
  obtain ⟨r, hptr', hpast, hrel, hdrop⟩ := href
  refine ⟨hkey.trans h.key, hvalid.trans h.valid, hnlink.trans h.nlink, ⟨r, hptr', ?_⟩,
    fun q hq => h.freed q (hfreed q hq)⟩
  rintro ⟨q, hq⟩
  by_cases hqp : q = p
  · rw [hqp, hpc, update_self] at hq; exact hq.elim hrel hdrop
  · rw [hpc, update_of_ne hqp] at hq; exact hpast ⟨q, hq⟩

theorem Done.of_step (h : Done s k) (hpc : s'.pc = update s.pc p y) (hdisk : s'.disk k = s.disk k)
    (hfreed : freedAs s' k = freedAs s k)
    (hent : ∀ e, 0 < (s'.ent e).ref → (s'.ent e).key = k → (s'.ent e).valid = true →
      0 < (s.ent e).ref ∧ (s.ent e).key = k ∧ (s.ent e).valid = true ∧ ∀ r, s.pc p ≠ .put r e .clear) : Done s' k := by
  refine ⟨hfreed.trans h.once, by rw [hdisk]; exact h.gone, fun e hpos hkey hv => ?_⟩
  obtain ⟨hpos, hkey, hv, hp⟩ := hent e hpos hkey hv
  obtain ⟨q, r, hq⟩ := h.invalid e hpos hkey hv
  have hqp : q ≠ p := by
    rintro rfl; exact hp r hq
  exact ⟨q, r, by rw [hpc, update_of_ne hqp]; exact hq⟩

variable [DecidableEq R] {j : Stage}

theorem iputNext_of_ne (hs : Icache.iputNext s p r x j = some s') (he : e ≠ x) : s'.ent e = s.ent e := by
  obtain ⟨f, hent, -⟩ := iputNext_modEnt hs; rw [hent, modEnt_of_ne he]

theorem iputNext_nlink (hs : Icache.iputNext s p r x j = some s') : (s'.ent e).di.nlink = (s.ent e).di.nlink := by
  obtain ⟨f, hent, hf⟩ := iputNext_modEnt hs
  rw [hent]
  exact modEnt_eq (·.di.nlink) (hf _).2.1 e

theorem iputNext_valid (hs : Icache.iputNext s p r x j = some s') (hj : j ≠ .clear) :
    (s'.ent e).valid = (s.ent e).valid := by
  obtain ⟨f, hent, hf⟩ := iputNext_modEnt hs
  rw [hent]
  exact modEnt_eq Inode.valid ((hf _).2.2.1 hj) e

variable [Fintype R]

/-- The entry that another process works on is not the one that `p` works on. -/
theorem Refs.keep_other (hr : Refs s) (hp : (s.pc p).inside = some x) (hs : Icache.iputNext s p r x j = some s')
    (q : P) (e : Fin n) (hq : q ≠ p) (hin : (s.pc q).inside = some e) : Keep s s' e := by
  have hne : e ≠ x := by
    rintro rfl; exact hq (hr.inside_unique hp hin)
  exact keep_of_eq (iputNext_of_ne hs hne)

theorem Puts.iputNext (h : Puts s) (hr : Refs s) (hp : s.pc p = .put r x j) (hs : Icache.iputNext s p r x j = some s') :
    Puts s' := by
  have hknows := h p
  rw [hp] at hknows
  cases j with
  | acquire =>
    obtain ⟨-, ⟨⟩⟩ := Option.ite_none_right_eq_some.1 hs
    exact h.of_step rfl (fun _ _ _ _ => keep_of_eq rfl) (fun _ hz => hz) trivial
  | test =>
    cases hs
    refine h.of_step rfl (fun _ _ _ _ => keep_of_eq rfl) (fun _ hz => hz) ?_
    split
    · rename_i htest; exact htest
    · trivial
  | count =>
    cases hs
    refine h.of_step rfl (fun _ _ _ _ => keep_of_eq rfl) (fun _ hz => hz) ?_
    split
    · exact hknows
    · trivial
  | trunc =>
    have hkeep := hr.keep_other (by rw [hp]; rfl) hs
    cases hs
    refine h.of_step rfl hkeep (fun _ hz => hz) ?_
    simp only [Knows, goto_ent, iupdate_ent, modEnt_self]
    exact ⟨hknows.1, hknows.2, rfl, fun _ => rfl⟩
  | free =>
    have hkeep := hr.keep_other (by rw [hp]; rfl) hs
    have hkey := iputNext_key hs x
    cases hs
    refine h.of_step rfl hkeep (fun _ hz => List.mem_append_left _ hz) ?_
    show (p, _) ∈ s.freed ++ [_]
    rw [hkey]
    exact List.mem_append_right _ (.head _)
  | clear =>
    have hkeep := hr.keep_other (by rw [hp]; rfl) hs
    cases hs
    exact h.of_step rfl hkeep (fun _ hz => hz) trivial
  | release =>
    cases hs; exact h.of_step rfl (fun _ _ _ _ => keep_of_eq rfl) (fun _ hz => hz) trivial
  | drop =>
    have hkey := iputNext_key hs
    have hvalid : ∀ e, (s'.ent e).valid = (s.ent e).valid := fun e => iputNext_valid hs (by decide)
    have hdi : ∀ e, (s'.ent e).di = (s.ent e).di := by
      cases hs; exact modEnt_eq (f := fun x => { x with ref := x.ref - 1 }) Inode.di rfl
    cases hs
    exact h.of_step rfl (fun _ e _ _ => ⟨hkey e, hvalid e, hdi e⟩) (fun _ hz => hz) trivial

/-- The `iput` that the inode waits for frees it. -/
theorem Waits.free (h : Waits s e k) (hputs : Puts s) (hr : Refs s) (hp : s.pc p = .put r e .free)
    (hs : Icache.iputNext s p r e .free = some s') : Done s' k := by
  have hkey := iputNext_key hs
  obtain ⟨-, -, hsize, haddrs⟩ : Knows s p (.put r e .free) := hp ▸ hputs p
  have hpos := hr.pos (hr.on p r e (by rw [hp]; rfl))
  have hold : ∀ e', 0 < (s'.ent e').ref → (s'.ent e').key = k → e' = e := fun e' hpos' hkey' => by
    by_contra hne
    rw [hkey, ← h.key] at hkey'
    rw [iputNext_of_ne hs hne] at hpos'
    exact hne (hr.uniq e' e hpos' hpos hkey')
  cases hs
  refine ⟨?_, ?_, fun e' hpos' hkey' _ => ⟨p, r, ?_⟩⟩
  · have hnone : (s.freed.filter fun x => decide (x.2 = k)) = [] := by
      refine List.filter_eq_nil_iff.2 fun x hx heq => h.freed x.1 ?_
      rw [← of_decide_eq_true heq]
      exact hx
    show ((s.freed ++ [(p, (s.ent e).key)]).filter fun x => decide (x.2 = k)).length = 1
    rw [freedAs_append, hnone, if_pos h.key]
    rfl
  · show Gone (update s.disk ((s.modEnt e _).ent e).key ((s.modEnt e _).ent e).di k)
    rw [modEnt_self]
    show Gone (update s.disk (s.ent e).key _ k)
    rw [h.key, update_self]
    exact ⟨rfl, hsize, haddrs⟩
  · rw [hold e' hpos' hkey']; exact goto_self p _

/-- A freed inode stays so: an entry of it that is valid belongs to the process that is about to clear it. -/
theorem Done.iputNext (h : Done s k) (hputs : Puts s) (hr : Refs s) (hp : s.pc p = .put r x j)
    (hs : Icache.iputNext s p r x j = some s') : Done s' k := by
  have hkey := iputNext_key hs
  have hpos := hr.pos (hr.on p r x (by rw [hp]; rfl))
  have hother : j = .trunc ∨ j = .free → (s.ent x).key ≠ k := by
    intro hst hk
    have hv : (s.ent x).valid = true := by
      have hknows := hputs p
      rw [hp] at hknows
      rcases hst with rfl | rfl <;> exact hknows.1
    obtain ⟨q, r', hq⟩ := h.invalid x hpos hk hv
    have hin : (s.pc p).inside = some x := by
      rw [hp]
      rcases hst with rfl | rfl <;> rfl
    have hqp : q = p := hr.inside_unique hin (by rw [hq]; rfl)
    rw [hqp, hp] at hq
    rcases hst with rfl | rfl <;> cases hq
  have hent : ∀ e, 0 < (s'.ent e).ref → (s'.ent e).key = k → (s'.ent e).valid = true →
      0 < (s.ent e).ref ∧ (s.ent e).key = k ∧ (s.ent e).valid = true ∧ ∀ r, s.pc p ≠ .put r e .clear := by
    intro e he hk hv
    rw [hkey] at hk
    by_cases hxe : e = x
    · subst hxe
      have hclear : j ≠ .clear := by
        rintro rfl
        cases hs
        rw [goto_ent, modEnt_self] at hv
        cases hv
      rw [iputNext_valid hs hclear] at hv
      refine ⟨hpos, hk, hv, fun r' heq => ?_⟩
      rw [hp] at heq
      exact hclear (Pc.put.inj heq).2.2
    · rw [iputNext_of_ne hs hxe] at he hv
      refine ⟨he, hk, hv, fun r' heq => ?_⟩
      rw [hp] at heq
      exact hxe (Pc.put.inj heq).2.1.symm
  cases j with
  | acquire =>
    obtain ⟨-, ⟨⟩⟩ := Option.ite_none_right_eq_some.1 hs; exact h.of_step rfl rfl rfl hent
  | trunc =>
    cases hs
    refine h.of_step rfl (iupdate_disk_of_ne ?_) rfl hent
    rw [modEnt_self]
    exact hother (.inl rfl)
  | free =>
    cases hs
    have hk := hother (.inr rfl)
    refine h.of_step rfl (iupdate_disk_of_ne ?_) ?_ hent
    · rw [modEnt_self]; exact hk
    · show ((s.freed ++ [(p, (s.ent x).key)]).filter fun z => decide (z.2 = k)).length = _
      rw [freedAs_append, if_neg hk]
      rfl
  | test | count | clear | release | drop => cases hs; exact h.of_step rfl rfl rfl hent

/-- The reference that the inode waits for is not that of a process that is past its test. -/
theorem Waits.iputNext (h : Waits s e k) (hputs : Puts s) (hr : Refs s) (hp : s.pc p = .put r x j)
    (hlast : j = .count → ∀ q r', s.pc q ≠ .put r' x .drop) (hs : Icache.iputNext s p r x j = some s') :
    Waits s' e k ∨ Done s' k := by
  have hkey := iputNext_key hs e
  have hnlink := iputNext_nlink (e := e) hs
  have hptr : s.ptr r = some x := hr.on p r x (by rw [hp]; rfl)
  obtain ⟨r', hptr', hpast⟩ := h.ref
  have hpos := hr.pos hptr'
  cases j with
  | acquire =>
    obtain ⟨-, ⟨⟩⟩ := Option.ite_none_right_eq_some.1 hs
    exact .inl (h.of_step rfl hkey rfl hnlink ⟨r', hptr', hpast, by simp, by simp⟩ fun _ hq => hq)
  | test =>
    cases hs
    refine .inl (h.of_step rfl hkey rfl hnlink ⟨r', hptr', hpast, fun heq => ?_, fun heq => ?_⟩ fun _ hq => hq)
    · obtain ⟨rfl, rfl, hst⟩ := Pc.put.inj heq
      rw [if_pos ⟨h.valid, h.nlink⟩] at hst
      cases hst
    · obtain ⟨-, -, hst⟩ := Pc.put.inj heq
      split at hst <;> cases hst
  | count =>
    by_cases hlone : (s.ent x).ref = 1
    · simp only [Icache.iputNext, if_pos hlone] at hs
      cases hs
      exact .inl (h.of_step rfl hkey rfl hnlink ⟨r', hptr', hpast, by simp, by simp⟩ fun _ hq => hq)
    · -- another reference is counted, and the process that has it has yet to make its test
      simp only [Icache.iputNext, if_neg hlone] at hs
      cases hs
      obtain ⟨r2, hne, hptr2⟩ := exists_ne_of_pointers hptr (by rw [← hr.count x]; exact hlone)
      by_cases hxe : x = e
      · subst hxe
        refine .inl (h.of_step rfl hkey rfl hnlink ⟨r2, hptr2, ?_, ?_, by simp⟩ fun _ hq => hq)
        · rintro ⟨q, hq | hq⟩
          · have hqp : q = p := hr.inside_unique (by rw [hp]; rfl) (by rw [hq]; rfl)
            rw [hqp, hp] at hq
            cases hq
          · exact hlast rfl q r2 hq
        · intro heq; exact hne (Pc.put.inj heq).1.symm
      · refine .inl (h.of_step rfl hkey rfl hnlink ⟨r', hptr', hpast, ?_, by simp⟩ fun _ hq => hq)
        intro heq
        exact hxe (Pc.put.inj heq).2.1
  | trunc =>
    have hvalid := iputNext_valid (e := e) hs (by decide)
    cases hs
    exact .inl (h.of_step rfl hkey hvalid hnlink ⟨r', hptr', hpast, by simp, by simp⟩ fun _ hq => hq)
  | free =>
    have hvalid := iputNext_valid (e := e) hs (by decide)
    by_cases hxe : x = e
    · subst hxe; exact .inr (h.free hputs hr hp hs)
    · cases hs
      refine .inl (h.of_step rfl hkey hvalid hnlink ⟨r', hptr', hpast, by simp, by simp⟩ fun q hq => ?_)
      rcases List.mem_append.1 hq with hq | hq
      · exact hq
      · cases List.mem_singleton.1 hq
        exact absurd (hr.uniq x e (hr.pos hptr) hpos h.key.symm) hxe
  | clear =>
    have hne : e ≠ x := by
      rintro rfl
      have hfreed : (p, (s.ent e).key) ∈ s.freed := by
        have := hputs p; rwa [hp] at this
      exact h.freed p (h.key ▸ hfreed)
    have hvalid : (s'.ent e).valid = (s.ent e).valid := by rw [iputNext_of_ne hs hne]
    cases hs
    refine .inl (h.of_step rfl hkey hvalid hnlink ⟨r', hptr', hpast, fun heq => ?_, by simp⟩ fun _ hq => hq)
    exact hne (Pc.put.inj heq).2.1.symm
  | release =>
    cases hs
    refine .inl (h.of_step rfl hkey rfl hnlink ⟨r', hptr', hpast, by simp, fun heq => ?_⟩ fun _ hq => hq)
    obtain ⟨rfl, rfl, -⟩ := Pc.put.inj heq
    exact hpast ⟨p, .inl hp⟩
  | drop =>
    have hvalid := iputNext_valid (e := e) hs (by decide)
    have hne : r' ≠ r := by
      rintro rfl
      rw [hptr', Option.some.injEq] at hptr
      rw [← hptr] at hp
      exact hpast ⟨p, .inr hp⟩
    cases hs
    exact .inl (h.of_step rfl hkey hvalid hnlink
      ⟨r', by exact (update_of_ne hne _ _).trans hptr', hpast, by simp, by simp⟩ fun _ hq => hq)

end

/-! ## References -/

/-- A step of `iget` or `idup`. -/
structure RefStep (s s' : State n P R) : Prop where
  pc : s'.pc = s.pc
  disk : s'.disk = s.disk
  freed : s'.freed = s.freed
  keep : ∀ e, 0 < (s.ent e).ref → Keep s s' e
  ptr : ∀ r e, s.ptr r = some e → s'.ptr r = some e
  fresh : ∀ e, 0 < (s'.ent e).ref → 0 < (s.ent e).ref ∨ (s'.ent e).valid = false

section

theorem RefStep.puts [Fintype R] (hs : RefStep s s') (hr : Refs s) (h : Puts s) : Puts s' := by
  intro p
  rw [hs.pc]
  refine (h p).keep (fun e he => ?_) (by rw [hs.freed]; exact fun _ hz => hz)
  obtain ⟨r, hl⟩ := hr.inside p e he
  exact hs.keep e (hr.pos (hr.lock e p r hl))

theorem RefStep.waits [Fintype R] (hs : RefStep s s') (hr : Refs s) (h : Waits s e k) : Waits s' e k := by
  obtain ⟨r, hptr, hpast⟩ := h.ref
  have hk := hs.keep e (hr.pos hptr)
  refine ⟨hk.key.trans h.key, hk.valid.trans h.valid, ?_, ⟨r, hs.ptr r e hptr, ?_⟩, by rw [hs.freed]; exact h.freed⟩
  · rw [hk.di]; exact h.nlink
  · unfold Past; rw [hs.pc]; exact hpast

theorem RefStep.done (hs : RefStep s s') (h : Done s k) : Done s' k := by
  refine ⟨?_, by rw [hs.disk]; exact h.gone, fun e hpos hkey hv => ?_⟩
  · unfold freedAs; rw [hs.freed]; exact h.once
  · rw [hs.pc]
    rcases hs.fresh e hpos with hpos | hfalse
    · have hk := hs.keep e hpos; exact h.invalid e hpos (hk.key ▸ hkey) (hk.valid ▸ hv)
    · rw [hv] at hfalse; cases hfalse

variable [DecidableEq R]

theorem ptr_of_none {r' : R} {e' : Fin n} {o : Option (Fin n)} (hr : s.ptr r = none) (hr' : s.ptr r' = some e') :
    update s.ptr r o r' = some e' := by
  rw [update_of_ne]
  · exact hr'
  · rintro rfl; rw [hr] at hr'; cases hr'

theorem refStep_again (hr : s.ptr r = none) (hpos : 0 < (s.ent e).ref) :
    RefStep s ((s.modEnt e fun x => { x with ref := x.ref + 1 }).setPtr r (some e)) := by
  refine ⟨rfl, rfl, rfl, fun e' _ => ?_, fun r' e' hr' => ?_, fun e' he' => .inl ?_⟩
  · exact ⟨modEnt_eq (f := fun x => { x with ref := x.ref + 1 }) Inode.key rfl e',
      modEnt_eq (f := fun x => { x with ref := x.ref + 1 }) Inode.valid rfl e',
      modEnt_eq (f := fun x => { x with ref := x.ref + 1 }) Inode.di rfl e'⟩
  · exact ptr_of_none hr hr'
  · by_cases hne : e' = e
    · rwa [hne]
    · rwa [setPtr_ent, modEnt_of_ne hne] at he'

theorem refStep_iget (hr : s.ptr r = none) (hs : iget s r k = some s') : RefStep s s' := by
  rcases iget_cases hs with ⟨x, hpos, rfl⟩ | ⟨x, href, -, rfl⟩
  · exact refStep_again hr hpos
  · refine ⟨rfl, rfl, rfl, fun e he => ?_, fun r' e' hr' => ?_, fun e he => ?_⟩
    · have hne : e ≠ x := by
        rintro rfl; rw [href] at he; exact lt_irrefl 0 he
      exact keep_of_eq (by rw [setPtr_ent, modEnt_of_ne hne])
    · exact ptr_of_none hr hr'
    · by_cases hne : e = x
      · rw [hne, setPtr_ent, modEnt_self]; exact .inr rfl
      · rw [setPtr_ent, modEnt_of_ne hne] at he; exact .inl he

end

/-! ## Runs -/

section

variable [Fintype R] [DecidableEq P] [DecidableEq R] [Fintype P]

/-- The invariant of inode `k`, of entry `e`. -/
structure Life (s : State n P R) (e : Fin n) (k : Key) : Prop where
  refs : Refs s
  puts : Puts s
  fate : Waits s e k ∨ Done s k

omit [DecidableEq P] [DecidableEq R] [Fintype P] in
theorem Life.refStep (h : Life s e k) (hr : Refs s') (hs : RefStep s s') : Life s' e k :=
  ⟨hr, hs.puts h.refs h.puts, h.fate.imp (hs.waits h.refs) hs.done⟩

theorem Life.step {a : Act n P R} (h : Life s e k) (hcall : a.refCall) (hlast : CountsLast s a)
    (hs : step s a = some s') :
    Life s' e k := by
  have hr := h.refs.step hs
  cases a with
  | iget p r k' =>
    obtain ⟨⟨-, hnone⟩, hs⟩ := Option.ite_none_right_eq_some.1 hs
    exact h.refStep hr (refStep_iget hnone hs)
  | idup p r r' =>
    simp only [Icache.step] at hs
    split at hs
    · rename_i x hptr
      obtain ⟨⟨-, hnone, -⟩, ⟨⟩⟩ := Option.ite_none_right_eq_some.1 hs
      exact h.refStep hr (refStep_again hnone (h.refs.pos hptr))
    · cases hs
  | iput p r =>
    simp only [Icache.step] at hs
    split at hs
    · rename_i x hptr
      obtain ⟨⟨hidle, -⟩, ⟨⟩⟩ := Option.ite_none_right_eq_some.1 hs
      refine ⟨hr, h.puts.of_step rfl (fun _ _ _ _ => keep_of_eq rfl) (fun _ hz => hz) trivial,
        h.fate.imp (fun hw => ?_) fun hd => ?_⟩
      · obtain ⟨r', hptr', hpast⟩ := hw.ref
        exact hw.of_step rfl rfl rfl rfl ⟨r', hptr', hpast, by simp, by simp⟩ fun _ hq => hq
      · exact hd.of_step rfl rfl rfl fun e hpos hkey hv => ⟨hpos, hkey, hv, fun r' => by rw [hidle]; simp⟩
    · cases hs
  | next p b =>
    obtain ⟨-, hs⟩ := Option.ite_none_right_eq_some.1 hs
    unfold next at hs
    have hknows := h.puts p
    cases hp : s.pc p with rw [hp] at hs hknows
    | idle => cases hs
    | put r x st =>
      refine ⟨hr, h.puts.iputNext h.refs hp hs, ?_⟩
      rcases h.fate with hw | hd
      · refine hw.iputNext h.puts h.refs hp ?_ hs
        rintro rfl
        exact hlast r x hp
      · exact .inr (hd.iputNext h.puts h.refs hp hs)
    | _ => exact hknows.elim
  | _ => exact absurd hcall id

omit [DecidableEq P] [DecidableEq R] [Fintype P] in
theorem Life.start (h : Quiet s) (hpos : 0 < (s.ent e).ref) (hv : (s.ent e).valid = true)
    (hl : (s.ent e).di.nlink = 0) :
    Life s e (s.ent e).key := by
  obtain ⟨hr, hidle, hfreed⟩ := h
  refine ⟨hr, fun p => by rw [hidle p]; trivial, .inl ⟨rfl, hv, hl, ?_, ?_⟩⟩
  · rw [hr.count e] at hpos
    obtain ⟨r, hptr⟩ := pointers_pos.1 hpos
    refine ⟨r, hptr, ?_⟩
    rintro ⟨q, hq⟩
    rw [hidle q] at hq
    exact hq.elim (fun h => by cases h) fun h => by cases h
  · rw [hfreed]; exact fun p => List.not_mem_nil

/-- When the count of an entry that was valid and without links has dropped to 0, its inode has been truncated
and freed by one `iput`, if no `iput` has read the count while another was about to decrease it. -/
theorem freed_by_last_iput {s0 : State n P R} (h0 : Quiet s0) (hpos : 0 < (s0.ent e).ref)
    (hv : (s0.ent e).valid = true) (hl : (s0.ent e).di.nlink = 0)
    (h : Reach (· = s0) step (fun s a => a.refCall ∧ CountsLast s a) s) (hz : (s.ent e).ref = 0) :
    freedAs s (s0.ent e).key = 1 ∧ Gone (s.disk (s0.ent e).key) := by
  have hlife : Life s e (s0.ent e).key := by
    refine Reach.inv (P := fun s => Life s e (s0.ent e).key) ?_ (fun _ _ _ hi hok hs => hi.step hok.1 hok.2 hs) h
    rintro s rfl
    exact Life.start h0 hpos hv hl
  rcases hlife.fate with hw | hd
  · obtain ⟨r, hptr, -⟩ := hw.ref
    have := hlife.refs.pos hptr
    rw [hz] at this
    exact absurd this (lt_irrefl 0)
  · exact ⟨hd.once, hd.gone⟩

end

/-- A file without links that two processes have open. -/
def unlinked : State 1 Bool Bool where
  ent _ := { key := (1, 1), ref := 2, valid := true, di := { type := .file } }
  lock _ := none
  ptr _ := some (Fin.last 0)
  pc _ := .idle
  disk k := if k = (1, 1) then { type := .file } else {}

theorem unlinked_quiet : Quiet unlinked := by
  refine ⟨⟨by decide, fun e e' _ _ _ => Subsingleton.elim e e', fun p r e hp => ?_, fun p e hp => ?_,
    fun e p r hl => ?_, fun p r e k hp => ?_⟩, fun _ => rfl, rfl⟩
  · cases hp
  · cases hp
  · cases hl
  · cases hp

/-- The processes close the file one after the other. -/
theorem freed_by_last_iput_twice :
    ∃ s : State 1 Bool Bool, (s.ent 0).ref = 0 ∧ freedAs s (1, 1) = 1 ∧ Gone (s.disk (1, 1)) := by
  have hrun : (runActs (guarded step fun s a => a.refCall ∧ CountsLast s a) unlinked
      ([.iput false false] ++ List.replicate 5 (.next false 1) ++ [.iput true true] ++ List.replicate 8
      (.next true 1))).any (fun s => decide ((s.ent 0).ref = 0)) = true := by decide +kernel
  obtain ⟨s, hr, hs⟩ := exists_reach_of_guarded_run (· = unlinked) _ rfl _ _ hrun
  have hz : (s.ent 0).ref = 0 := of_decide_eq_true hs
  exact ⟨s, hz, freed_by_last_iput (e := 0) unlinked_quiet (by decide) rfl rfl hr hz⟩

/-- The processes close the file at the same time: both see two references, and the inode is not freed. -/
theorem unlinked_never_freed : ∃ s : State 1 Bool Bool, Quiet unlinked ∧ 0 < (unlinked.ent 0).ref ∧
    (unlinked.ent 0).valid = true ∧ (unlinked.ent 0).di.nlink = 0 ∧ Reach (· = unlinked) step (fun _ a => a.refCall) s ∧
    (s.ent 0).ref = 0 ∧ freedAs s (1, 1) = 0 ∧ (s.disk (1, 1)).type = .file := by
  have hrun : (runActs (guarded step fun _ a => a.refCall) unlinked
      ([.iput false false] ++ List.replicate 4 (.next false 1) ++ [.iput true true] ++ List.replicate 4
        (.next true 1) ++ [.next false 1, .next true 1])).any
      (fun s => decide ((s.ent 0).ref = 0 ∧ freedAs s (1, 1) = 0 ∧ (s.disk (1, 1)).type = .file)) = true := by
    decide +kernel
  obtain ⟨s, hr, hs⟩ := exists_reach_of_guarded_run (· = unlinked) _ rfl _ _ hrun
  exact ⟨s, unlinked_quiet, by decide, rfl, rfl, hr, of_decide_eq_true hs⟩

end Xv6.Icache
