/-
The invariant that ties the contexts of the processes to the file system, and that every operation
taken by the rules keeps it. References are counted: the cache entry of an inode has at least as
many as the processes own, in their calls, descriptors and current directories, so an `iput` that
frees an inode is by its only owner. Directories are ordered by a ghost birth date, set by `ialloc`:
an entry other than `.` and `..` leads from an older directory to a younger one.
-/
import Xv6.Fs.Ctx
import Xv6.Fs.Entries
import Mathlib.Algebra.Order.BigOperators.Group.Finset
import Mathlib.Data.Fintype.BigOperators

namespace Xv6.Fs

open Base Function

variable {N : Nat} {t : Fin N} {s s' : State N} {i j d : Inum} {birth birth' : Inum → Nat} {ctx : Fin N → Ctx}
  {clock x : Nat} {fd : Fin NOFILE}

/-! ## Definitions -/

/-- The references that the descriptors and the current directory of process `t` have on `i`. -/
def State.outside (s : State N) (t : Fin N) (i : Inum) : Nat :=
  (∑ fd, if (s.ofile t fd).bind File.ip = some i then 1 else 0) + if s.cwd t = i then 1 else 0

/-- Directories are born before the directories in them. -/
def Tree (ino : Inum → Inode) (birth : Inum → Nat) : Prop :=
  ∀ d e, (ino d).type = .dir → e ∈ (ino d).ents → e.inum ≠ 0 → ¬ IsDot e.name → (ino e.inum).type = .dir →
    birth d < birth e.inum

def Fact.Holds (ino : Inum → Inode) (birth : Inum → Nat) : Fact → Prop
  | .type i ty => (ino i).type = ty ∧ ty ≠ .free
  | .newer d i => (ino d).type ≠ .free ∧ birth d < birth i
  | .entry d i => (ino d).type = .dir ∧ ∃ e ∈ (ino d).ents, e.inum = i ∧ e.inum ≠ 0 ∧ ¬ IsDot e.name

/-- `log.outstanding` counts the processes in a transaction, and the log of none is empty. -/
structure LogInv (inOp : Fin N → Bool) (log : Log) : Prop where
  out : log.outstanding = (Finset.univ.filter fun t => inOp t = true).card
  idle : log.outstanding = 0 → log.committing = false → log.n = 0

/-- The context of process `t` is right. -/
structure Local (s : State N) (birth : Inum → Nat) (t : Fin N) (c : Ctx) : Prop where
  tx : s.inOp t = c.tx
  carried : s.carried t = c.carried
  lock : ∀ i, (s.cache i).lock = some t ↔ i ∈ c.locks
  facts : ∀ f, c.facts f → f.Holds s.ino birth

structure Inv (s : State N) (ctx : Fin N → Ctx) (birth : Inum → Nat) (clock : Nat) : Prop where
  loc : ∀ t, Local s birth t (ctx t)
  log : LogInv s.inOp s.log
  ref : ∀ i, ∑ t, ((ctx t).refs i + s.outside t i) ≤ (s.cache i).ref
  live : ∀ i, (s.cache i).valid = true → (s.ino i).type ≠ .free
  born : ∀ i, birth i < clock
  tree : Tree s.ino birth

/-! ## What an operation leaves alone -/

/-- What process `t` leaves to the others. -/
structure Others (t : Fin N) (s s' : State N) : Prop where
  tx : ∀ u, u ≠ t → s'.inOp u = s.inOp u
  carried : ∀ u, u ≠ t → s'.carried u = s.carried u
  ofile : ∀ u, u ≠ t → s'.ofile u = s.ofile u
  cwd : ∀ u, u ≠ t → s'.cwd u = s.cwd u
  lock : ∀ u, u ≠ t → ∀ i, (s'.cache i).lock = some u ↔ (s.cache i).lock = some u

namespace Others

variable {s'' : State N}

theorem refl (t : Fin N) (s : State N) : Others t s s :=
  ⟨fun _ _ => rfl, fun _ _ => rfl, fun _ _ => rfl, fun _ _ => rfl, fun _ _ _ => Iff.rfl⟩

theorem trans (h : Others t s s') (h' : Others t s' s'') : Others t s s'' :=
  ⟨fun u hu => (h'.tx u hu).trans (h.tx u hu), fun u hu => (h'.carried u hu).trans (h.carried u hu),
    fun u hu => (h'.ofile u hu).trans (h.ofile u hu), fun u hu => (h'.cwd u hu).trans (h.cwd u hu),
    fun u hu i => (h'.lock u hu i).trans (h.lock u hu i)⟩

theorem modIno (t : Fin N) (s : State N) (i : Inum) (f : Inode → Inode) : Others t s (s.modIno i f) :=
  ⟨fun _ _ => rfl, fun _ _ => rfl, fun _ _ => rfl, fun _ _ => rfl, fun _ _ _ => Iff.rfl⟩

/-- A change of a cache entry that gives or takes the lock from no other process. -/
theorem modEntry {f : Entry N → Entry N}
    (h : ∀ u, u ≠ t → ((f (s.cache i)).lock = some u ↔ (s.cache i).lock = some u)) : Others t s (s.modEntry i f) := by
  refine ⟨fun _ _ => rfl, fun _ _ => rfl, fun _ _ => rfl, fun _ _ => rfl, fun u hu j => ?_⟩
  unfold State.modEntry
  by_cases hj : j = i
  · subst hj; simpa using h u hu
  · simp [hj]

theorem setFile (s : State N) (t : Fin N) (fd : Fin NOFILE) (f : Option File) : Others t s (s.setFile t fd f) :=
  ⟨fun _ _ => rfl, fun _ _ => rfl, fun u hu => by simp [State.setFile, hu], fun _ _ => rfl, fun _ _ _ => Iff.rfl⟩

theorem outside (h : Others t s s') {u : Fin N} (hu : u ≠ t) (i : Inum) : s'.outside u i = s.outside u i := by
  unfold State.outside; rw [h.ofile u hu, h.cwd u hu]

end Others

/-- The directory structure is the same. -/
def SameTree (ino ino' : Inum → Inode) : Prop := ∀ i, (ino' i).type = (ino i).type ∧ (ino' i).ents = (ino i).ents

theorem SameTree.refl (ino : Inum → Inode) : SameTree ino ino := fun _ => ⟨rfl, rfl⟩

variable {f : Entry N → Entry N} {ino ino' : Inum → Inode}

theorem SameTree.modIno {f : Inode → Inode} (hty : ∀ ip, (f ip).type = ip.type) (hents : ∀ ip, (f ip).ents = ip.ents) :
    SameTree s.ino (s.modIno i f).ino := by
  intro j
  unfold State.modIno
  by_cases hj : j = i
  · subst hj; simp [hty, hents]
  · simp [hj]

theorem Fact.Holds.congr (h : SameTree ino ino') {f : Fact} (hf : f.Holds ino birth) : f.Holds ino' birth := by
  cases f with
  | type i ty => exact ⟨(h i).1.trans hf.1, hf.2⟩
  | newer d i => exact ⟨(h d).1 ▸ hf.1, hf.2⟩
  | entry d i => exact ⟨(h d).1.trans hf.1, (h d).2 ▸ hf.2⟩

theorem Tree.congr (h : SameTree ino ino') (ht : Tree ino birth) : Tree ino' birth := fun d e hd he h0 hn hc =>
  ht d e ((h d).1 ▸ hd) ((h d).2 ▸ he) h0 hn ((h e.inum).1 ▸ hc)

theorem sum_update_add {ι : Type} [Fintype ι] [DecidableEq ι] (g g' : ι → Nat) (t : ι) (h : ∀ u, u ≠ t → g' u = g u) :
    ∑ u, g' u + g t = ∑ u, g u + g' t := by
  have hg := Finset.add_sum_erase Finset.univ g (Finset.mem_univ t)
  have hg' := Finset.add_sum_erase Finset.univ g' (Finset.mem_univ t)
  have he : ∑ u ∈ Finset.univ.erase t, g' u = ∑ u ∈ Finset.univ.erase t, g u :=
    Finset.sum_congr rfl fun u hu => h u (Finset.ne_of_mem_erase hu)
  omega

namespace Inv

variable {clock' : Nat} {c : Ctx}

/-- A step of process `t`: its own context and references, what the others know, and the parts of
the invariant that are about no process. -/
theorem change (h : Inv s ctx birth clock) (ho : Others t s s')
    (hfacts : ∀ u, u ≠ t → ∀ f, (ctx u).facts f → f.Holds s'.ino birth') (hloc : Local s' birth' t c)
    (hlog : LogInv s'.inOp s'.log)
    (href : ∀ i, c.refs i + s'.outside t i + (s.cache i).ref ≤ (ctx t).refs i + s.outside t i + (s'.cache i).ref)
    (hlive : ∀ i, (s'.cache i).valid = true → (s'.ino i).type ≠ .free) (hborn : ∀ i, birth' i < clock')
    (htree : Tree s'.ino birth') : Inv s' (update ctx t c) birth' clock' := by
  refine ⟨fun u => ?_, hlog, fun i => ?_, hlive, hborn, htree⟩
  · by_cases hu : u = t
    · subst hu; simpa using hloc
    · have hl := h.loc u
      simp only [update_of_ne hu]
      exact ⟨(ho.tx u hu).trans hl.tx, (ho.carried u hu).trans hl.carried, fun i => (ho.lock u hu i).trans (hl.lock i),
        hfacts u hu⟩
  · have hsum := sum_update_add (fun u => (ctx u).refs i + s.outside u i)
      (fun u => (update ctx t c u).refs i + s'.outside u i) t fun u hu => by
        simp only [update_of_ne hu, ho.outside hu]
    simp only [update_self] at hsum
    have := h.ref i
    have := href i
    omega

theorem keep (h : Inv s ctx birth clock) (ho : Others t s s') (hino : SameTree s.ino s'.ino)
    (hloc : Local s' birth t c) (hlog : LogInv s'.inOp s'.log)
    (href : ∀ i, c.refs i + s'.outside t i + (s.cache i).ref ≤ (ctx t).refs i + s.outside t i + (s'.cache i).ref)
    (hlive : ∀ i, (s'.cache i).valid = true → (s'.ino i).type ≠ .free) : Inv s' (update ctx t c) birth clock :=
  h.change ho (fun u _ f hf => ((h.loc u).facts f hf).congr hino) hloc hlog href hlive h.born (h.tree.congr hino)

/-- A step of which the contexts need no record. -/
theorem same (h : Inv s ctx birth clock) (ho : Others t s s') (hino : SameTree s.ino s'.ino)
    (hloc : Local s' birth t (ctx t)) (hlog : LogInv s'.inOp s'.log) (hout : ∀ i, s'.outside t i ≤ s.outside t i)
    (hcache : s'.cache = s.cache) : Inv s' (update ctx t (ctx t)) birth clock := by
  refine h.keep ho hino hloc hlog (fun i => ?_) fun i hv => ?_
  · rw [hcache]; have := hout i; omega
  · rw [(hino i).1]; exact h.live i (hcache ▸ hv)

theorem learn (h : Inv s ctx birth clock) {f : Fact} (hf : f.Holds s.ino birth) :
    Inv s (update ctx t ((ctx t).learn f)) birth clock := by
  have hl := h.loc t
  refine h.keep (Others.refl t s) (SameTree.refl _) ⟨hl.tx, hl.carried, hl.lock, fun g hg => ?_⟩ h.log
    (fun i => le_rfl) h.live
  rcases hg with hg | ⟨rfl, -⟩
  · exact hl.facts g hg
  · exact hf

end Inv

/-! ## The log -/

theorem logWrite_eq_some (h : s.logWrite x = some s') :
    1 ≤ s.log.outstanding ∧ s' = { s with log := { s.log with n := s.log.n + x } } := by
  unfold State.logWrite at h
  split at h
  · cases h
  · split at h
    · cases h
    · cases h; exact ⟨by omega, rfl⟩

/-- An operation that writes the log goes on with the state this leaves. -/
theorem map_logWrite {α : Type} {g : State N → α} {y : α} (h : (s.logWrite x).map g = some y) :
    s.logWrite x = some { s with log := { s.log with n := s.log.n + x } } ∧
      y = g { s with log := { s.log with n := s.log.n + x } } := by
  obtain ⟨s1, hw, rfl⟩ := Option.map_eq_some_iff.1 h
  obtain ⟨-, rfl⟩ := logWrite_eq_some hw
  exact ⟨hw, rfl⟩

namespace LogInv

variable {inOp : Fin N → Bool} {log : Log}

theorem write (h : LogInv inOp log) (ho : 1 ≤ log.outstanding) (x : Nat) : LogInv inOp { log with n := log.n + x } :=
  ⟨h.out, fun h0 => by simp only at h0; omega⟩

theorem beginOp (h : LogInv inOp log) (ht : inOp t = false) :
    LogInv (update inOp t true) { log with outstanding := log.outstanding + 1 } := by
  refine ⟨?_, fun h0 => by simp only at h0; omega⟩
  have hset : (Finset.univ.filter fun u => update inOp t true u = true) =
      insert t (Finset.univ.filter fun u => inOp u = true) := by
    ext u
    by_cases hu : u = t <;> simp [hu]
  show log.outstanding + 1 = _
  rw [hset, Finset.card_insert_of_notMem (by simp [ht]), h.out]

theorem endOp (h : LogInv inOp log) (ht : inOp t = true) (b : Bool) (hb : log.outstanding - 1 = 0 → b = true) :
    LogInv (update inOp t false) { log with outstanding := log.outstanding - 1, committing := b } := by
  refine ⟨?_, fun h0 hc => by simp only at h0 hc; rw [hb h0] at hc; cases hc⟩
  have hset : (Finset.univ.filter fun u => update inOp t false u = true) =
      (Finset.univ.filter fun u => inOp u = true).erase t := by
    ext u
    by_cases hu : u = t <;> simp [hu]
  show log.outstanding - 1 = _
  rw [hset, Finset.card_erase_of_mem (by simp [ht]), h.out]

theorem commit (h : LogInv inOp log) : LogInv inOp { log with n := 0, committing := false } := ⟨h.out, fun _ _ => rfl⟩

end LogInv

/-! ## Locks and references -/

theorem modEntry_apply {β : Type} (π : Entry N → β) (h : π (f (s.cache i)) = π (s.cache i)) (j : Inum) :
    π ((s.modEntry i f).cache j) = π (s.cache j) := by
  unfold State.modEntry
  by_cases hj : j = i
  · subst hj; simpa using h
  · simp [hj]

@[simp] theorem modEntry_self : (s.modEntry i f).cache i = f (s.cache i) := by simp [State.modEntry]

theorem modEntry_of_ne (h : j ≠ i) : (s.modEntry i f).cache j = s.cache j := by simp [State.modEntry, h]

theorem outside_setFile (s : State N) (t : Fin N) (fd : Fin NOFILE) (f : Option File) (i : Inum) :
    (s.setFile t fd f).outside t i + (if (s.ofile t fd).bind File.ip = some i then 1 else 0) =
      s.outside t i + if f.bind File.ip = some i then 1 else 0 := by
  have hsum := sum_update_add (fun fd' => if (s.ofile t fd').bind File.ip = some i then 1 else 0)
    (fun fd' => if ((s.setFile t fd f).ofile t fd').bind File.ip = some i then 1 else 0) fd fun u hu => by
      simp [State.setFile, hu]
  have hfd : (s.setFile t fd f).ofile t fd = f := by simp [State.setFile]
  have hcwd : (s.setFile t fd f).cwd = s.cwd := rfl
  beta_reduce at hsum
  rw [hfd] at hsum
  simp only [State.outside, hcwd]
  omega

namespace Inv

section

variable (h : Inv s ctx birth clock)

include h

/-- A step of process `t` at the cache entry of one inode. -/
theorem entry {c : Ctx} (hlock : ∀ u, u ≠ t → ((f (s.cache i)).lock = some u ↔ (s.cache i).lock = some u))
    (hloc : Local (s.modEntry i f) birth t c) (href : c.refs i + (s.cache i).ref ≤ (ctx t).refs i + (f (s.cache i)).ref)
    (hrefs : ∀ j, j ≠ i → c.refs j = (ctx t).refs j) (hv : (f (s.cache i)).valid = true → (s.ino i).type ≠ .free) :
    Inv (s.modEntry i f) (update ctx t c) birth clock := by
  refine h.keep (Others.modEntry hlock) (SameTree.refl _) hloc h.log (fun j => ?_) fun j hj => ?_
  · show c.refs j + s.outside t j + _ ≤ (ctx t).refs j + s.outside t j + _
    by_cases hj : j = i
    · subst hj; rw [modEntry_self]; omega
    · rw [modEntry_of_ne hj, hrefs j hj]
  · by_cases hji : j = i
    · subst hji; rw [modEntry_self] at hj; exact hv hj
    · rw [modEntry_of_ne hji] at hj; exact h.live j hj

theorem acquire (hi : (s.cache i).lock = none) :
    Inv (s.modEntry i fun e => { e with lock := some t }) (update ctx t ((ctx t).lock i)) birth clock := by
  have hl := h.loc t
  refine h.entry (fun u hu => by simp [hi, hu.symm]) ⟨hl.tx, hl.carried, fun j => ?_, hl.facts⟩ le_rfl
    (fun _ _ => rfl) (h.live i)
  by_cases hj : j = i
  · subst hj; simp [Ctx.lock]
  · simp [Ctx.lock, modEntry_of_ne hj, hj, hl.lock j]

theorem release (hi : (s.cache i).lock = some t) :
    Inv (s.modEntry i fun e => { e with lock := none }) (update ctx t ((ctx t).unlock i)) birth clock := by
  have hl := h.loc t
  refine h.entry (fun u hu => by simp [hi, hu.symm])
    ⟨hl.tx, hl.carried, fun j => ?_, fun f hf => hl.facts f hf.1⟩ le_rfl (fun _ _ => rfl) (h.live i)
  by_cases hj : j = i
  · subst hj; simp [Ctx.unlock]
  · simp [Ctx.unlock, modEntry_of_ne hj, hj, hl.lock j]

theorem addRef (hlock : (f (s.cache i)).lock = (s.cache i).lock) (href : (f (s.cache i)).ref = (s.cache i).ref + 1)
    (hv : (f (s.cache i)).valid = true → (s.cache i).valid = true) :
    Inv (s.modEntry i f) (update ctx t ((ctx t).addRef i)) birth clock := by
  have hl := h.loc t
  refine h.entry (fun u _ => by rw [hlock]) ⟨hl.tx, hl.carried, fun j => ?_, hl.facts⟩ ?_ (fun j hj => ?_)
    fun hf => h.live i (hv hf)
  · rw [modEntry_apply Entry.lock hlock]; exact hl.lock j
  · simp only [Ctx.addRef, update_self, href]; omega
  · simp only [Ctx.addRef, update_of_ne hj]

theorem refs_le (t : Fin N) (i : Inum) : (ctx t).refs i ≤ (s.cache i).ref := by
  have hsum := Finset.single_le_sum (f := fun u => (ctx u).refs i + s.outside u i) (fun _ _ => zero_le)
    (Finset.mem_univ t)
  have := h.ref i
  omega

theorem putRef (hi : 0 < (ctx t).refs i) :
    Inv { s.putRef i with carried := update s.carried t ((s.carried t).erase i) }
      (update ctx t ((ctx t).put i)) birth clock := by
  have hl := h.loc t
  have hown := h.refs_le t i
  have hm : ∀ j, (s.putRef i).cache j = (s.modEntry i fun e => { e with ref := e.ref - 1 }).cache j := fun _ => rfl
  have ho : Others t s (s.modEntry i fun e => { e with ref := e.ref - 1 }) := Others.modEntry fun _ _ => Iff.rfl
  refine h.keep ⟨ho.tx, fun u hu => by simp [hu], ho.ofile, ho.cwd, ho.lock⟩
    (SameTree.refl _) ⟨hl.tx, by simp [Ctx.put, hl.carried], fun j => ?_, fun f hf => hl.facts f hf.1⟩ h.log
    (fun j => ?_) fun j hj => ?_
  · show ((s.putRef i).cache j).lock = some t ↔ _
    rw [hm, modEntry_apply Entry.lock rfl]; exact hl.lock j
  · show ((ctx t).put i).refs j + s.outside t j + (s.cache j).ref ≤ (ctx t).refs j + s.outside t j +
      ((s.putRef i).cache j).ref
    rw [hm]
    by_cases hj : j = i
    · subst hj; simp only [Ctx.put, Ctx.drop, update_self, modEntry_self]; omega
    · simp only [Ctx.put, Ctx.drop, update_of_ne hj, modEntry_of_ne hj]; omega
  · have hj' : ((s.putRef i).cache j).valid = true := hj
    rw [hm, modEntry_apply Entry.valid rfl] at hj'
    exact h.live j hj'

theorem setFile {f : File} (hf : f.ip = some i) (hi : 0 < (ctx t).refs i) :
    Inv (s.setFile t fd (some f)) (update ctx t ((ctx t).drop i)) birth clock := by
  have hl := h.loc t
  refine h.keep (Others.setFile s t fd _) (SameTree.refl _) ⟨hl.tx, hl.carried, hl.lock, fun g hg => hl.facts g hg.1⟩
    h.log (fun j => ?_) h.live
  have hout := outside_setFile s t fd (some f) j
  show ((ctx t).drop i).refs j + (s.setFile t fd (some f)).outside t j + (s.cache j).ref ≤ _ + (s.cache j).ref
  by_cases hj : j = i
  · subst hj
    simp only [Option.bind_some, hf, if_true] at hout
    simp only [Ctx.drop, update_self]
    omega
  · simp only [Option.bind_some, hf, Option.some.injEq, Ne.symm hj, if_false] at hout
    simp only [Ctx.drop, update_of_ne hj]
    omega

theorem takeFile {f : File} (hfd : s.ofile t fd = some f) (hf : f.ip = some i) :
    Inv (s.setFile t fd none) (update ctx t ((ctx t).addRef i)) birth clock := by
  have hl := h.loc t
  refine h.keep (Others.setFile s t fd none) (SameTree.refl _) ⟨hl.tx, hl.carried, hl.lock, hl.facts⟩ h.log
    (fun j => ?_) h.live
  have hout := outside_setFile s t fd none j
  show ((ctx t).addRef i).refs j + (s.setFile t fd none).outside t j + (s.cache j).ref ≤ _ + (s.cache j).ref
  by_cases hj : j = i
  · subst hj
    simp only [hfd, Option.bind_some, hf, if_true] at hout
    simp only [Ctx.addRef, update_self]
    simp at hout
    omega
  · simp only [hfd, Option.bind_some, hf, Option.some.injEq, Ne.symm hj, if_false] at hout
    simp only [Ctx.addRef, update_of_ne hj]
    simp at hout
    omega

theorem swapCwd (hi : 0 < (ctx t).refs i) :
    Inv { s with cwd := update s.cwd t i } (update ctx t (((ctx t).drop i).addRef (s.cwd t))) birth
      clock := by
  have hl := h.loc t
  refine h.keep ⟨fun _ _ => rfl, fun _ _ => rfl, fun _ _ => rfl, fun u hu => by simp [hu], fun _ _ _ => Iff.rfl⟩
    (SameTree.refl _) ⟨hl.tx, hl.carried, hl.lock, fun g hg => hl.facts g hg.1⟩ h.log (fun j => ?_) h.live
  show (((ctx t).drop i).addRef (s.cwd t)).refs j + _ + (s.cache j).ref ≤ _ + (s.cache j).ref
  simp only [State.outside, update_self, Ctx.addRef, Ctx.drop]
  by_cases hj : j = i <;> by_cases hc : j = s.cwd t <;> simp [hj, hc, update_apply] <;> grind

end

end Inv

/-! ## Inodes and entries -/

theorem Fact.Holds.alive {f : Fact} (h : f.Holds ino birth) : (ino f.on).type ≠ .free := by
  cases f with
  | type i ty => exact fun h0 => h.2 (h.1.symm.trans h0)
  | newer d i => exact h.1
  | entry d i => exact fun h0 => by cases h.1.symm.trans h0

theorem Fact.Holds.of_ne {f : Fact} (h : f.Holds ino birth) (hi : f.on ≠ i) (hino : ∀ j, j ≠ i → ino' j = ino j)
    (hb : birth' f.on = birth f.on) (hle : ∀ j, birth j ≤ birth' j) : f.Holds ino' birth' := by
  cases f with
  | type j ty => exact ⟨(hino j hi) ▸ h.1, h.2⟩
  | newer d j => exact ⟨(hino d hi) ▸ h.1, by rw [show birth' d = birth d from hb]; exact h.2.trans_le (hle j)⟩
  | entry d j => exact ⟨(hino d hi) ▸ h.1, (hino d hi) ▸ h.2⟩

theorem Fact.Holds.of_ents {f : Fact} (h : f.Holds ino birth) (hf : ∀ i, f ≠ .entry d i)
    (hty : ∀ j, (ino' j).type = (ino j).type) (hents : ∀ j, j ≠ d → (ino' j).ents = (ino j).ents) :
    f.Holds ino' birth := by
  cases f with
  | type j ty => exact ⟨(hty j).trans h.1, h.2⟩
  | newer e j => exact ⟨(hty e) ▸ h.1, h.2⟩
  | entry e j =>
    have he : e ≠ d := fun he => hf j (by rw [he])
    exact ⟨(hty e).trans h.1, (hents e he) ▸ h.2⟩

theorem modIno_of_ne {f : Inode → Inode} (h : j ≠ i) : (s.modIno i f).ino j = s.ino j := by
  simp [State.modIno, h]

@[simp] theorem modIno_self {f : Inode → Inode} : (s.modIno i f).ino i = f (s.ino i) := by
  simp [State.modIno]

namespace Inv

section

variable (h : Inv s ctx birth clock)

include h

theorem only_owner (ht : 0 < (ctx t).refs i) (hr : (s.cache i).ref = 1) {u : Fin N} (hu : u ≠ t) :
    (ctx u).refs i = 0 := by
  have hsum := h.ref i
  have h2 := Finset.add_sum_erase Finset.univ (fun v => (ctx v).refs i + s.outside v i) (Finset.mem_univ t)
  have h3 := Finset.single_le_sum (f := fun v => (ctx v).refs i + s.outside v i) (fun _ _ => zero_le)
    (Finset.mem_erase.2 ⟨hu, Finset.mem_univ u⟩)
  omega

theorem free {f : Inode → Inode} (hf : ∀ ip, (f ip).type = .free) (ht : 0 < (ctx t).refs i) (hr : (s.cache i).ref = 1) :
    Inv ((s.modIno i f).modEntry i fun e => { e with valid := false }) (update ctx t ((ctx t).forget i)) birth
      clock := by
  have hl := h.loc t
  have hne : ∀ j, j ≠ i → (s.modIno i f).ino j = s.ino j := fun j hj => modIno_of_ne hj
  refine h.change ((Others.modIno t s i f).trans (Others.modEntry fun _ _ => Iff.rfl)) (fun u hu g hg => ?_)
    ⟨hl.tx, hl.carried, fun j => ?_, fun g hg => (hl.facts g hg.1).of_ne hg.2 hne rfl fun _ => le_rfl⟩ h.log
    (fun j => ?_) (fun j hj => ?_) h.born fun d e hd he h0 hn hc => ?_
  · have hon : g.on ≠ i := fun hon => by
      have hg' := (ctx u).held g hg
      rw [hon, h.only_owner ht hr hu] at hg'
      exact lt_irrefl 0 hg'
    exact ((h.loc u).facts g hg).of_ne hon hne rfl fun _ => le_rfl
  · rw [modEntry_apply Entry.lock rfl]; exact hl.lock j
  · rw [modEntry_apply Entry.ref rfl]; exact le_rfl
  · by_cases hji : j = i
    · subst hji; simp at hj
    · rw [modEntry_of_ne hji] at hj
      show ((s.modIno i f).ino j).type ≠ .free
      rw [hne j hji]; exact h.live j hj
  · have hty : ∀ j, ((s.modIno i f).ino j).type = .dir → (s.modIno i f).ino j = s.ino j := fun j hj => by
      refine hne j fun hji => ?_
      subst hji
      rw [modIno_self, hf] at hj
      cases hj
    have hd' : ((s.modIno i f).ino d).type = .dir := hd
    have hc' : ((s.modIno i f).ino e.inum).type = .dir := hc
    have he' : e ∈ ((s.modIno i f).ino d).ents := he
    have hdeq := hty d hd'
    have hceq := hty e.inum hc'
    rw [hdeq] at hd' he'
    rw [hceq] at hc'
    exact h.tree d e hd' he' h0 hn hc'

theorem ents {es : List Dirent} (hd : d ∈ (ctx t).locks)
    (hes : ∀ e ∈ es, e ∈ (s.ino d).ents ∨ (e.inum ≠ 0 → ¬ IsDot e.name → (s.ino e.inum).type = .dir →
      birth d < birth e.inum)) :
    Inv (s.modIno d fun dp => { dp with ents := es }) (update ctx t ((ctx t).cut d)) birth clock := by
  have hl := h.loc t
  have hty : ∀ j, ((s.modIno d fun dp => { dp with ents := es }).ino j).type = (s.ino j).type := fun j => by
    by_cases hj : j = d
    · subst hj; rw [modIno_self]
    · rw [modIno_of_ne hj]
  have hents : ∀ j, j ≠ d → ((s.modIno d fun dp => { dp with ents := es }).ino j).ents =
      (s.ino j).ents := fun j hj => by
    rw [modIno_of_ne hj]
  refine h.change (Others.modIno t s d _) (fun u hu g hg => ?_)
    ⟨hl.tx, hl.carried, hl.lock, fun g hg => (hl.facts g hg.1).of_ents hg.2 hty hents⟩ h.log (fun j => le_rfl)
    (fun j hj => by rw [hty]; exact h.live j hj) h.born fun d' e hd' he h0 hn hc => ?_
  · refine ((h.loc u).facts g hg).of_ents (fun i hgi => ?_) hty hents
    subst hgi
    have hu' := ((h.loc u).lock d).2 ((ctx u).pinned d i hg)
    rw [(hl.lock d).2 hd] at hu'
    exact hu (Option.some.inj hu').symm
  · rw [hty] at hd' hc
    by_cases hdd : d' = d
    · subst hdd
      rw [modIno_self] at he
      rcases hes e he with he | he
      · exact h.tree d' e hd' he h0 hn hc
      · exact he h0 hn hc
    · rw [hents d' hdd] at he; exact h.tree d' e hd' he h0 hn hc

theorem alloc (ty : IType) (hi : (s.ino i).type = .free) :
    Inv (s.modIno i fun _ => { type := ty }) (update ctx t ((ctx t).alloc i)) (update birth i clock)
      (clock + 1) := by
  have hl := h.loc t
  have hne : ∀ j, j ≠ i → (s.modIno i fun _ => { type := ty }).ino j = s.ino j := fun j hj => modIno_of_ne hj
  have hle : ∀ j, birth j ≤ update birth i clock j := fun j => by
    by_cases hj : j = i
    · subst hj; simpa using (h.born j).le
    · simp [hj]
  have hkeep : ∀ g : Fact, g.Holds s.ino birth →
      g.Holds (s.modIno i fun _ => { type := ty }).ino (update birth i clock) := fun g hg => by
    have hon : g.on ≠ i := fun hon => hg.alive (hon ▸ hi)
    exact hg.of_ne hon hne (by simp [hon]) hle
  refine h.change (Others.modIno t s i _) (fun u hu g hg => hkeep g ((h.loc u).facts g hg))
    ⟨hl.tx, hl.carried, hl.lock, fun g hg => ?_⟩ h.log (fun j => le_rfl) (fun j hj => ?_) (fun j => ?_)
    fun d e hd he h0 hn hc => ?_
  · rcases hg with hg | ⟨d, ty', hd, rfl⟩
    · exact hkeep g (hl.facts g hg)
    · have hdt := hl.facts _ hd
      have hdi : d ≠ i := fun hdi => hdt.alive (hdi ▸ hi)
      have halive : (s.ino d).type ≠ .free := hdt.alive
      refine ⟨(hne d hdi).symm ▸ halive, ?_⟩
      simpa [hdi] using h.born d
  · by_cases hji : j = i
    · subst hji; exact absurd hi (h.live j hj)
    · rw [hne j hji]; exact h.live j hj
  · by_cases hji : j = i
    · subst hji; simp
    · have := h.born j; simp only [update_of_ne hji]; omega
  · by_cases hdi : d = i
    · subst hdi; simp at he
    · rw [hne d hdi] at hd he
      by_cases hei : e.inum = i
      · simpa [hei, hdi] using h.born d
      · rw [hne _ hei] at hc; simpa [hei, hdi] using h.tree d e hd he h0 hn hc

theorem logWrite (hw : s.logWrite x = some s') :
    Inv s' ctx birth clock := by
  obtain ⟨h1, rfl⟩ := logWrite_eq_some hw
  refine ⟨fun u => ?_, h.log.write h1 x, h.ref, h.live, h.born, h.tree⟩
  have hl := h.loc u
  exact ⟨hl.tx, hl.carried, hl.lock, hl.facts⟩

theorem modIno {f : Inode → Inode} (hty : ∀ ip, (f ip).type = ip.type) (hents : ∀ ip, (f ip).ents = ip.ents) :
    Inv (s.modIno i f) (update ctx t (ctx t)) birth clock := by
  have hl := h.loc t
  have hino := SameTree.modIno (s := s) (i := i) hty hents
  exact h.same (Others.modIno t s i f) hino ⟨hl.tx, hl.carried, hl.lock, fun g hg => (hl.facts g hg).congr hino⟩ h.log
    (fun _ => le_rfl) rfl

/-- A descriptor changes that keeps its inode, or is new. -/
theorem file {f : Option File} (hf : ∀ i, f.bind File.ip = some i → (s.ofile t fd).bind File.ip = some i) :
    Inv (s.setFile t fd f) (update ctx t (ctx t)) birth clock := by
  have hl := h.loc t
  refine h.same (Others.setFile s t fd f) (SameTree.refl _) ⟨hl.tx, hl.carried, hl.lock, hl.facts⟩ h.log
    (fun i => ?_) rfl
  have hout := outside_setFile s t fd f i
  show (s.setFile t fd f).outside t i ≤ s.outside t i
  by_cases hi : f.bind File.ip = some i
  · simp only [hf i hi, hi, if_true] at hout; omega
  · simp only [hi, if_false] at hout; omega

theorem counts (u n : Nat) : Inv { s with used := u, nfile := n } ctx birth clock := by
  refine ⟨fun t => ?_, h.log, h.ref, h.live, h.born, h.tree⟩
  have hl := h.loc t
  exact ⟨hl.tx, hl.carried, hl.lock, hl.facts⟩

theorem self : Inv s (update ctx t (ctx t)) birth clock := by
  rw [update_eq_self]; exact h

end

end Inv

/-- Every operation of process `t` taken by the rules keeps the invariant, with the context the rule
gives. -/
theorem exec_sound {dup : Bool} {o : Op} {r : o.Ret} {Q : o.Ret → Ctx → Prop} (h : Inv s ctx birth clock)
    (hw : (ctx t).wp dup o Q) (he : exec t s x o = some (r, s')) :
    ∃ c birth' clock', Inv s' (update ctx t c) birth' clock' ∧ Q r c := by
  have hl := h.loc t
  cases o with
  | beginOp =>
    obtain ⟨-, ⟨⟩⟩ := Option.ite_none_right_eq_some.1 he
    refine ⟨_, _, _, h.keep (c := (ctx t).setTx true) ⟨fun u hu => by simp [hu], fun _ _ => rfl, fun _ _ => rfl,
      fun _ _ => rfl, fun _ _ _ => Iff.rfl⟩ (SameTree.refl _) ⟨by simp [Ctx.setTx], hl.carried, hl.lock, hl.facts⟩
      (h.log.beginOp (hl.tx.trans hw.1)) (fun _ => le_rfl) h.live, hw.2⟩
  | endOp =>
    obtain ⟨-, ⟨⟩⟩ := Option.ite_none_left_eq_some.1 he
    refine ⟨_, _, _, h.keep (c := (ctx t).setTx false) ⟨fun u hu => by simp [hu], fun _ _ => rfl, fun _ _ => rfl,
      fun _ _ => rfl, fun _ _ _ => Iff.rfl⟩ (SameTree.refl _) ⟨by simp [Ctx.setTx], hl.carried, hl.lock, hl.facts⟩
      (h.log.endOp (hl.tx.trans hw.1) _ fun h0 => by simp [h0]) (fun _ => le_rfl) h.live, hw.2 _⟩
  | commit =>
    cases he
    exact ⟨_, _, _, h.same ⟨fun _ _ => rfl, fun _ _ => rfl, fun _ _ => rfl, fun _ _ => rfl, fun _ _ _ => Iff.rfl⟩
      (SameTree.refl _) ⟨hl.tx, hl.carried, hl.lock, hl.facts⟩ h.log.commit (fun _ => le_rfl) rfl, hw⟩
  | acquire i put =>
    obtain ⟨hi, ⟨⟩⟩ := Option.ite_none_right_eq_some.1 he
    have hnot : i ∉ (ctx t).locks := fun hm => by
      have := (hl.lock i).2 hm; rw [hi.2] at this; cases this
    exact ⟨_, _, _, h.acquire hi.2, hw.2 hnot⟩
  | load i =>
    have hlearn : (s.ino i).type ≠ .free → Q () ((ctx t).learn (.type i (s.ino i).type)) := fun hty =>
      hw _ hty fun ty hf => (hl.facts _ hf).1.symm
    simp only [exec] at he
    split at he
    · rename_i hv
      cases he
      have hty := h.live i hv
      exact ⟨_, _, _, h.learn (f := .type i (s.ino i).type) ⟨rfl, hty⟩, hlearn hty⟩
    · split at he
      · cases he
      · rename_i hty
        cases he
        have hi' : Inv (s.modEntry i fun e => { e with valid := true }) (update ctx t (ctx t)) birth clock := by
          refine h.entry (fun _ _ => Iff.rfl) ⟨hl.tx, hl.carried, fun j => ?_, hl.facts⟩
            le_rfl (fun _ _ => rfl) fun _ => hty
          rw [modEntry_apply Entry.lock rfl]; exact hl.lock j
        rw [update_eq_self] at hi'
        exact ⟨_, _, _, hi'.learn (f := .type i (s.ino i).type) ⟨rfl, hty⟩, hlearn hty⟩
  | release i put =>
    obtain ⟨hi, ⟨⟩⟩ := Option.ite_none_right_eq_some.1 he
    exact ⟨_, _, _, h.release hi.2, hw ((hl.lock i).1 hi.2)⟩
  | iget i =>
    obtain ⟨s1, hg, heq⟩ := Option.map_eq_some_iff.1 he
    cases heq
    unfold State.iget at hg
    split at hg
    · cases hg; exact ⟨_, _, _, h.addRef rfl rfl id, hw⟩
    · split at hg
      · cases hg
        have hone : 1 = (s.cache i).ref + 1 := by omega
        exact ⟨_, _, _, (h.addRef rfl hone fun hv => by cases hv).counts _ _, hw⟩
      · cases hg
  | idupCwd => cases he; exact ⟨_, _, _, h.addRef rfl rfl id, hw _⟩
  | iputFree i =>
    simp only [exec] at he
    split at he
    · rename_i hi
      obtain ⟨hlw, ⟨⟩⟩ := map_logWrite he
      have hone : (ctx t).refs i = 1 := by
        have := h.refs_le t i; have := hw.1; omega
      exact ⟨_, _, _, (h.logWrite hlw).free (fun _ => rfl) hw.1 hi.2.2, hw.2.2.2 hone⟩
    · cases he; exact ⟨_, _, _, h.self, hw.2.2.1⟩
  | putRef i => cases he; exact ⟨_, _, _, h.putRef hw.1, hw.2⟩
  | stat i => cases he; exact ⟨_, _, _, h.self, hw _ fun ty hf => (hl.facts _ hf).1⟩
  | dirFind d name =>
    obtain ⟨hd, ⟨⟩⟩ := Option.ite_none_right_eq_some.1 he
    rcases hf : findEnt name (s.ino d).ents 0 with _ | ⟨off, i⟩
    · exact ⟨_, _, _, h.self, hw.1⟩
    · refine ⟨(ctx t).found d name i, birth, clock, ?_, hw.2 off i⟩
      unfold Ctx.found
      split
      · exact h.self
      · rename_i hn
        obtain ⟨e, hm, hi, h0, rfl⟩ := findEnt_mem hf
        exact h.learn ⟨hd, e, hm, hi, h0, hn⟩
  | addEnt d name i =>
    obtain ⟨-, he⟩ := Option.ite_none_right_eq_some.1 he
    obtain ⟨hlw, ⟨⟩⟩ := map_logWrite he
    refine ⟨_, _, _, (h.logWrite hlw).ents hw.2.1 fun e hm => ?_, hw.2.2.2⟩
    refine (mem_putEnt hm).symm.imp_right fun heq h0 hn hc => ?_
    subst heq
    rcases hw.2.2.1 with hdot | hnew | ⟨ty, hty, hf⟩
    · exact absurd hdot hn
    · exact (hl.facts _ hnew).2
    · exact absurd ((hl.facts _ hf).1.symm.trans hc) hty
  | clearEnt d off =>
    obtain ⟨hlw, ⟨⟩⟩ := map_logWrite he
    refine ⟨_, _, _, (h.logWrite hlw).ents hw.2.1 fun e hm => ?_, hw.2.2⟩
    rcases List.mem_or_eq_of_mem_set hm with hm | rfl
    · exact .inl hm
    · exact .inr fun h0 => absurd rfl h0
  | addNlink i delta | initInode i major minor =>
    obtain ⟨hlw, ⟨⟩⟩ := map_logWrite he
    exact ⟨_, _, _, (h.logWrite hlw).modIno (fun _ => rfl) fun _ => rfl, hw.2⟩
  | iallocTry i ty =>
    simp only [exec] at he
    split at he
    · rename_i hi
      obtain ⟨hlw, ⟨⟩⟩ := map_logWrite he
      exact ⟨_, _, _, (h.logWrite hlw).alloc ty hi, hw.2.2⟩
    · cases he; exact ⟨_, _, _, h.self, hw.2.1⟩
  | ninodes | console n | getFile fd => cases he; exact ⟨_, _, _, h.self, hw _⟩
  | readi i off n =>
    simp only [exec] at he
    split at he <;> cases he <;> exact ⟨_, _, _, h.self, hw _⟩
  | writei i off bytes =>
    simp only [exec] at he
    split at he
    · cases he
    · split at he
      · cases he; exact ⟨_, _, _, h.self, hw.2 _⟩
      · obtain ⟨hlw, ⟨⟩⟩ := map_logWrite he
        exact ⟨_, _, _, (h.logWrite hlw).modIno (fun _ => rfl) fun _ => rfl, hw.2 _⟩
  | filealloc =>
    simp only [exec] at he
    split at he
    · cases he; exact ⟨_, _, _, h.self.counts _ _, hw _⟩
    · cases he; exact ⟨_, _, _, h.self, hw _⟩
  | fileFree => cases he; exact ⟨_, _, _, h.self.counts _ _, hw⟩
  | fdalloc =>
    simp only [exec] at he
    split at he
    · cases he; exact ⟨_, _, _, h.file (fun i hi => by cases hi), hw _⟩
    · cases he; exact ⟨_, _, _, h.self, hw _⟩
  | setFile fd i readable writable => cases he; exact ⟨_, _, _, h.setFile rfl hw.1, hw.2⟩
  | setOff fd off =>
    cases he
    refine ⟨_, _, _, h.file fun i hi => ?_, hw⟩
    rcases hfd : s.ofile t fd with _ | f
    · rw [hfd] at hi; cases hi
    · rw [hfd] at hi; exact hi
  | takeFile fd =>
    simp only [exec] at he
    split at he
    · cases he; exact ⟨_, _, _, h.self, hw.1⟩
    · rename_i f hfd
      cases he
      rcases hf : f.ip with _ | i
      · exact ⟨_, _, _, (h.file (f := none) fun i hi => by cases hi).counts _ _, hw.2.1⟩
      · exact ⟨_, _, _, (h.takeFile hfd hf).counts _ _, hw.2.2 i⟩
  | swapCwd i => cases he; exact ⟨_, _, _, h.swapCwd hw.1, hw.2 _⟩
  | carry is =>
    cases he
    exact ⟨_, _, _, h.keep (c := (ctx t).carry is) ⟨fun _ _ => rfl, fun u hu => by simp [hu], fun _ _ => rfl,
      fun _ _ => rfl, fun _ _ _ => Iff.rfl⟩ (SameTree.refl _) ⟨hl.tx, by simp [Ctx.carry], hl.lock, hl.facts⟩ h.log
      (fun _ => le_rfl) h.live, hw.2⟩
  | panic => cases he

end Xv6.Fs
