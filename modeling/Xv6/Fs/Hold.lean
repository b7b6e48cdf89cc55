/-
What a call does to the file system while no other process moves. `Hold s0 ino L M s` says of a state
within a call that began in `s0`: the inodes are `ino`, and the call has the references `L` and `M` beside
those of `s0`, the ones in `M` to inodes it has locked. The rules below are exact, so at the end of a call
the inodes and the reference counts are known.
-/
import Xv6.Base.Seq
import Xv6.Fs.Alone

namespace Xv6.Fs

open Base Logic Function

variable {N : Nat} {s s' s0 : State N} {t : Fin N} {o : Op} {ino : Inum → Inode} {L M : Multiset Inum} {i c : Inum}
  {type : IType} {parent : Bool} {path : List UInt8}

/-- The answers that process `t` can get, as far as `ok` lets it go on. -/
def answers (t : Fin N) (ok : (Inum → Inode) → Op → Prop) (s : State N) (o : Op) (r : o.Ret) (s' : State N) : Prop :=
  ok s.ino o ∧ (kernel N).answers t s o r s'

/-- The logic of process `t` on its own. -/
abbrev solo (t : Fin N) (ok : (Inum → Inode) → Op → Prop) : Logic Op Op.Ret (State N) := seq (answers t ok)

structure Hold (s0 : State N) (ino : Inum → Inode) (L M : Multiset Inum) (s : State N) : Prop where
  eq : s.ino = ino
  ref : ∀ i, (s.cache i).ref = (s0.cache i).ref + (L.count i + M.count i)
  live : ∀ i, (s.cache i).valid = true → (ino i).type ≠ .free
  kept : ∀ i, 0 < (s0.cache i).ref → (s0.cache i).valid = true → (s.cache i).valid = true
  locked : ∀ i ∈ M, (s.cache i).valid = true
  ofile : s.ofile = s0.ofile
  cwd : s.cwd = s0.cwd
  ninodes : s.ninodes = s0.ninodes

theorem Hold.start (h : ∀ i, (s.cache i).valid = true → (s.ino i).type ≠ .free) : Hold s s.ino 0 0 s :=
  ⟨rfl, fun i => by simp, h, fun _ _ h => h, fun i hi => absurd hi (Multiset.notMem_zero i), rfl, rfl, rfl⟩

/-! ## What the operations change -/

/-- The inodes after an `iput` that frees `i`. -/
def freeAt (ino : Inum → Inode) (i : Inum) : Inum → Inode :=
  update ino i { ino i with type := .free, ents := [], data := [] }

/-- After the write of an entry. -/
def entAt (ino : Inum → Inode) (d : Inum) (e : Dirent) : Inum → Inode :=
  update ino d { ino d with ents := putEnt e (ino d).ents }

def linkAt (ino : Inum → Inode) (i : Inum) (delta : Int) : Inum → Inode :=
  update ino i { ino i with nlink := (ino i).nlink + delta }

/-- After `ialloc`. -/
def allocAt (ino : Inum → Inode) (i : Inum) (type : IType) : Inum → Inode := update ino i { type := type }

def initAt (ino : Inum → Inode) (i : Inum) (major minor : Int) : Inum → Inode :=
  update ino i { ino i with major := major, minor := minor, nlink := 1 }

/-- Operations that change no inode, reference, descriptor or current directory. -/
def Op.calm : Op → Bool
  | .beginOp | .endOp | .commit | .acquire _ _ | .release _ _ | .stat _ | .dirFind _ _
    | .ninodes | .readi _ _ _ | .console _
  | .filealloc | .fileFree | .getFile _ | .carry _ => true
  | _ => false

/-- Such operations leave this of the state. -/
structure Calm (s s' : State N) : Prop where
  ino : s'.ino = s.ino
  ref : ∀ i, (s'.cache i).ref = (s.cache i).ref
  valid : ∀ i, (s'.cache i).valid = (s.cache i).valid
  ofile : s'.ofile = s.ofile
  cwd : s'.cwd = s.cwd
  ninodes : s'.ninodes = s.ninodes

theorem Calm.lock (s : State N) (i : Inum) (l : Option (Fin N)) : Calm s (s.modEntry i fun e => { e with lock := l }) :=
  ⟨rfl, modEntry_apply Entry.ref rfl, modEntry_apply Entry.valid rfl, rfl, rfl, rfl⟩

theorem exec_calm {x : Nat} {r : o.Ret} (he : exec t s x o = some (r, s')) (ho : o.calm = true) : Calm s s' := by
  cases o with
  | beginOp | endOp | filealloc | dirFind d name | readi j off n =>
    simp only [exec] at he
    split at he <;> cases he
    all_goals exact ⟨rfl, fun _ => rfl, fun _ => rfl, rfl, rfl, rfl⟩
  | commit | stat j | ninodes | console n | fileFree | getFile fd | carry is =>
    cases he; exact ⟨rfl, fun _ => rfl, fun _ => rfl, rfl, rfl, rfl⟩
  | acquire j put | release j put =>
    simp only [exec] at he
    split at he
    · cases he; exact Calm.lock ..
    · cases he
  | _ => cases ho

namespace Hold

theorem calm (h : Hold s0 ino L M s) (hc : Calm s s') : Hold s0 ino L M s' where
  eq := hc.ino.trans h.eq
  ref j := (hc.ref j).trans (h.ref j)
  live j hj := h.live j (hc.valid j ▸ hj)
  kept j h0 hv := (hc.valid j).trans (h.kept j h0 hv)
  locked j hj := (hc.valid j).trans (h.locked j hj)
  ofile := hc.ofile.trans h.ofile
  cwd := hc.cwd.trans h.cwd
  ninodes := hc.ninodes.trans h.ninodes

theorem type_ne (h : Hold s0 ino L M s) (hi : i ∈ M) : (ino i).type ≠ .free := h.live i (h.locked i hi)

theorem addRef (h : Hold s0 ino L M s) {f : Entry N → Entry N} (href : (f (s.cache i)).ref = (s.cache i).ref + 1)
    (hvalid : (f (s.cache i)).valid = true → (s.cache i).valid = true)
    (hkeep : 0 < (s.cache i).ref → (f (s.cache i)).valid = (s.cache i).valid) :
    Hold s0 ino (i ::ₘ L) M (s.modEntry i f) := by
  have hpos : ∀ j, 0 < (s.cache j).ref → ((s.modEntry i f).cache j).valid = (s.cache j).valid := fun j hj => by
    by_cases hji : j = i
    · subst hji; rw [modEntry_self]; exact hkeep hj
    · rw [modEntry_of_ne hji]
  refine ⟨h.eq, fun j => ?_, fun j hj => ?_, fun j h0 hv => ?_, fun j hj => ?_, h.ofile, h.cwd, h.ninodes⟩
  · by_cases hji : j = i
    · subst hji; rw [modEntry_self, href, h.ref j, Multiset.count_cons_self]; omega
    · rw [modEntry_of_ne hji, h.ref j, Multiset.count_cons_of_ne hji]
  · by_cases hji : j = i
    · subst hji; rw [modEntry_self] at hj; exact h.live j (hvalid hj)
    · rw [modEntry_of_ne hji] at hj; exact h.live j hj
  · rw [hpos j (by rw [h.ref j]; omega)]; exact h.kept j h0 hv
  · rw [hpos j (by have := Multiset.count_pos.2 hj; rw [h.ref j]; omega)]; exact h.locked j hj

theorem iget (h : Hold s0 ino L M s) (hg : s.iget i = some s') : Hold s0 ino (i ::ₘ L) M s' := by
  unfold State.iget at hg
  split at hg
  · cases hg; exact h.addRef rfl (fun h => h) fun _ => rfl
  · rename_i h0
    split at hg
    · cases hg
      have h' := h.addRef (i := i) (f := fun e => { e with ref := 1, valid := false })
        (by show 1 = (s.cache i).ref + 1; omega) (fun h => by cases h) fun h => absurd h h0
      exact ⟨h'.eq, h'.ref, h'.live, h'.kept, h'.locked, h'.ofile, h'.cwd, h'.ninodes⟩
    · cases hg

theorem putRef (h : Hold s0 ino (i ::ₘ L) M s) (t : Fin N) :
    Hold s0 ino L M { s.putRef i with carried := update s.carried t ((s.carried t).erase i) } := by
  have hv : ∀ j, ((s.putRef i).cache j).valid = (s.cache j).valid :=
    modEntry_apply (s := s) (i := i) (f := fun e => { e with ref := e.ref - 1 }) Entry.valid rfl
  refine ⟨h.eq, fun j => ?_, fun j hj => h.live j (hv j ▸ hj), fun j h0 h1 => (hv j).trans (h.kept j h0 h1),
    fun j hj => (hv j).trans (h.locked j hj), h.ofile, h.cwd, h.ninodes⟩
  have hr := h.ref j
  show ((s.modEntry i fun e => { e with ref := e.ref - 1 }).cache j).ref = _
  by_cases hji : j = i
  · subst hji
    rw [Multiset.count_cons_self] at hr
    rw [modEntry_self]
    dsimp only
    omega
  · rw [Multiset.count_cons_of_ne hji] at hr; rw [modEntry_of_ne hji, hr]

theorem write {log : Log} {f : Inode → Inode} {ino' : Inum → Inode} (h : Hold s0 ino L M s)
    (heq : ino' = update ino i (f (ino i))) (hf : (ino i).type ≠ .free → (f (ino i)).type ≠ .free) :
    Hold s0 ino' L M ({ s with log := log }.modIno i f) := by
  subst heq
  refine ⟨?_, h.ref, fun j hj => ?_, h.kept, h.locked, h.ofile, h.cwd, h.ninodes⟩
  · rw [← h.eq]; rfl
  · by_cases hji : j = i
    · subst hji; rw [update_self]; exact hf (h.live j hj)
    · rw [update_of_ne hji]; exact h.live j hj

theorem setFile (h : Hold s0 ino L M s) (t : Fin N) (fd : Fin NOFILE) (f : Option File) :
    Hold (s0.setFile t fd f) ino L M (s.setFile t fd f) := by
  refine ⟨h.eq, h.ref, h.live, h.kept, h.locked, ?_, h.cwd, h.ninodes⟩
  unfold State.setFile
  rw [h.ofile]

end Hold

theorem setFile_setFile (s : State N) (t : Fin N) (fd : Fin NOFILE) (f f' : Option File) :
    (s.setFile t fd f).setFile t fd f' = s.setFile t fd f' := by
  simp [State.setFile]

section

variable {ok : (Inum → Inode) → Op → Prop} {d : Inum}
  {name : Name}

/-! ## Inodes -/

theorem op_calm {Q : o.Ret → State N → Prop} (h : Hold s0 ino L M s) (ho : o.calm = true)
    (hQ : ∀ r s', Hold s0 ino L M s' → Q r s') : (solo t ok).wpProg Q (op o) s := by
  rintro r s' ⟨-, x, he⟩
  exact hQ r s' (h.calm (exec_calm he ho))

theorem stat_hold {Q : Inode → State N → Prop} (h : Hold s0 ino L M s) (hQ : Q (ino i) s) :
    (solo t ok).wpProg Q (stat i) s := by
  rintro r s' ⟨-, x, he⟩
  cases he
  rw [h.eq]
  exact hQ

variable {Q : Unit → State N → Prop} {H : Multiset Inum}

theorem iget_hold (h : Hold s0 ino L M s) (hQ : ∀ s', Hold s0 ino (i ::ₘ L) M s' → Q () s') :
    (solo t ok).wpProg Q (op (.iget i)) s := by
  rintro r s' ⟨-, x, he⟩
  obtain ⟨s1, hg, heq⟩ := Option.map_eq_some_iff.1 he
  cases heq
  exact hQ _ (h.iget hg)

theorem ilock_hold (h : Hold s0 ino (i ::ₘ L) M s)
    (hQ : ∀ s', (ino i).type ≠ .free → Hold s0 ino L (i ::ₘ M) s' → Q () s') : (solo t ok).wpProg Q (ilock i) s := by
  refine wp_bind.2 (op_calm h rfl fun _ s1 h1 => ?_)
  -- the reference goes to the locked ones once the inode is in memory
  have hmove : ∀ {s2 : State N}, Hold s0 ino (i ::ₘ L) M s2 → (s2.cache i).valid = true → Hold s0 ino L (i ::ₘ M) s2 :=
    fun {s2} h2 hv => by
      refine ⟨h2.eq, fun j => ?_, h2.live, h2.kept, fun j hj => ?_, h2.ofile, h2.cwd, h2.ninodes⟩
      · rw [h2.ref j, Multiset.count_cons, Multiset.count_cons]; omega
      · rcases Multiset.mem_cons.1 hj with rfl | hj
        · exact hv
        · exact h2.locked j hj
  rintro r s2 ⟨-, x, he⟩
  simp only [kernel, exec] at he
  split at he
  · rename_i hv; cases he; exact hQ _ (h1.live i hv) (hmove h1 hv)
  · split at he
    · cases he
    · rename_i hty
      cases he
      rw [h1.eq] at hty
      have h2 : Hold s0 ino (i ::ₘ L) M (s1.modEntry i fun e => { e with valid := true }) := by
        refine ⟨h1.eq, fun j => ?_, fun j hj => ?_, fun j h0 hv => ?_, fun j hj => ?_, h1.ofile, h1.cwd, h1.ninodes⟩
        · rw [modEntry_apply Entry.ref rfl]; exact h1.ref j
        · by_cases hji : j = i
          · rw [hji]; exact hty
          · rw [modEntry_of_ne hji] at hj; exact h1.live j hj
        · by_cases hji : j = i
          · rw [hji, modEntry_self]
          · rw [modEntry_of_ne hji]; exact h1.kept j h0 hv
        · by_cases hji : j = i
          · rw [hji, modEntry_self]
          · rw [modEntry_of_ne hji]; exact h1.locked j hj
      exact hQ _ hty (hmove h2 (by rw [modEntry_self]))

theorem iunlock_hold (h : Hold s0 ino L (i ::ₘ M) s)
    (hQ : ∀ s', (s'.cache i).valid = true → Hold s0 ino (i ::ₘ L) M s' → Q () s') :
    (solo t ok).wpProg Q (iunlock i) s := by
  refine op_calm h rfl fun _ s' h' => hQ s' (h'.locked i (Multiset.mem_cons_self ..)) ?_
  refine ⟨h'.eq, fun j => ?_, h'.live, h'.kept, fun j hj => h'.locked j (Multiset.mem_cons_of_mem hj), h'.ofile, h'.cwd,
    h'.ninodes⟩
  rw [h'.ref j, Multiset.count_cons, Multiset.count_cons]
  omega

/-- Nobody else has a reference to `i`, and it has no name: `iput` frees it. -/
def Last (s0 : State N) (ino : Inum → Inode) (H : Multiset Inum) (i : Inum) : Prop :=
  (ino i).nlink = 0 ∧ (s0.cache i).ref = 0 ∧ i ∉ H

theorem iput_hold (h : Hold s0 ino (i ::ₘ L) M s)
    (hkeep : ∀ s', ¬ ((s.cache i).valid = true ∧ Last s0 ino (L + M) i) → Hold s0 ino L M s' → Q () s')
    (hfree : ∀ s', (s.cache i).valid = true → Last s0 ino (L + M) i → Hold s0 (freeAt ino i) L M s' → Q () s') :
    (solo t ok).wpProg Q (iput i) s := by
  -- after the truncation the reference is given up
  have hrest : ∀ {s2 : State N} (ino' : Inum → Inode), Hold s0 ino' (i ::ₘ L) M s2 →
      (∀ s', Hold s0 ino' L M s' → Q () s') → (solo t ok).wpProg Q (do op (.release i true); op (.putRef i)) s2 :=
    fun {s2} _ h2 hQ => by
      refine wp_bind.2 (op_calm h2 rfl fun _ s3 h3 => ?_)
      rintro r s4 ⟨-, x, he⟩
      cases he
      exact hQ _ (h3.putRef t)
  refine wp_bind.2 ?_
  rintro r s1 ⟨-, x, he1⟩
  have hc1 := exec_calm (x := x) (o := .acquire i true) he1 rfl
  have h1 := h.calm hc1
  refine wp_bind.2 ?_
  rintro r s2 ⟨-, y, he2⟩
  simp only [kernel, exec] at he2
  have hlast : (s1.cache i).ref = 1 ↔ (s0.cache i).ref = 0 ∧ i ∉ L + M := by
    rw [h1.ref i, Multiset.count_cons_self, Multiset.mem_add, ← Multiset.count_pos, ← Multiset.count_pos]
    omega
  split at he2
  · rename_i hc
    obtain ⟨hv, hn, hr⟩ := hc
    obtain ⟨-, ⟨⟩⟩ := map_logWrite he2
    rw [h1.eq] at hn
    obtain ⟨hr0, hiH⟩ := hlast.1 hr
    refine hrest (freeAt ino i) ?_ fun s' => hfree s' (hc1.valid i ▸ hv) ⟨hn, hr0, hiH⟩
    refine ⟨?_, fun j => ?_, fun j hj => ?_, fun j h0 hvj => ?_, fun j hj => ?_, h1.ofile, h1.cwd, h1.ninodes⟩
    · rw [← h1.eq]; rfl
    · rw [modEntry_apply Entry.ref rfl]; exact h1.ref j
    · by_cases hji : j = i
      · subst hji; rw [modEntry_self] at hj; cases hj
      · rw [modEntry_of_ne hji] at hj
        unfold freeAt
        rw [update_of_ne hji]
        exact h1.live j hj
    · have hji : j ≠ i := fun hji => by rw [hji, hr0] at h0; exact absurd h0 (lt_irrefl 0)
      rw [modEntry_of_ne hji]
      exact h1.kept j h0 hvj
    · have hji : j ≠ i := fun hji => hiH (Multiset.mem_add.2 (.inr (hji ▸ hj)))
      rw [modEntry_of_ne hji]
      exact h1.locked j hj
  · rename_i hc
    cases he2
    refine hrest _ h1 fun s' => hkeep s' fun hl => hc ⟨(hc1.valid i).trans hl.1, ?_, hlast.2 hl.2.2⟩
    rw [h1.eq]
    exact hl.2.1

/-- An `iput` does not free `i`. -/
def Safe (s0 : State N) (ino : Inum → Inode) (H : Multiset Inum) (i : Inum) : Prop :=
  (ino i).type ≠ .free → ¬ Last s0 ino H i

theorem Safe.of_nlink (h : (ino i).nlink ≠ 0) : Safe s0 ino H i := fun _ hl => h hl.1

theorem Safe.of_mem (h : i ∈ H) : Safe s0 ino H i := fun _ hl => hl.2.2 h

theorem Safe.mono {H' : Multiset Inum} (h : Safe s0 ino H i) (hH : H ≤ H') : Safe s0 ino H' i :=
  fun hty hl => h hty ⟨hl.1, hl.2.1, fun hi => hl.2.2 (Multiset.mem_of_le hH hi)⟩

theorem iput_safe (h : Hold s0 ino (i ::ₘ L) M s) (hi : Safe s0 ino (L + M) i)
    (hQ : ∀ s', Hold s0 ino L M s' → Q () s') : (solo t ok).wpProg Q (iput i) s :=
  iput_hold h (fun s' _ => hQ s') fun _ hv hl _ => absurd hl (hi (h.live i hv))

theorem iunlockput_hold (h : Hold s0 ino L (i ::ₘ M) s)
    (hkeep : ∀ s', ¬ Last s0 ino (L + M) i → Hold s0 ino L M s' → Q () s')
    (hfree : ∀ s', Last s0 ino (L + M) i → Hold s0 (freeAt ino i) L M s' → Q () s') :
    (solo t ok).wpProg Q (iunlockput i) s :=
  wp_bind.2 (iunlock_hold h fun _ hv h1 => iput_hold h1 (fun s' hl => hkeep s' fun h => hl ⟨hv, h⟩)
    fun s' _ => hfree s')

theorem iunlockput_safe (h : Hold s0 ino L (i ::ₘ M) s) (hi : Safe s0 ino (L + M) i)
    (hQ : ∀ s', Hold s0 ino L M s' → Q () s') : (solo t ok).wpProg Q (iunlockput i) s :=
  iunlockput_hold h (fun s' _ => hQ s') fun _ hl _ => absurd hl (hi (h.type_ne (Multiset.mem_cons_self ..)))

/-! ## Writes -/

theorem addNlink_hold {delta : Int} (h : Hold s0 ino L M s)
    (hQ : ∀ s', ok ino (.addNlink i delta) → Hold s0 (linkAt ino i delta) L M s' → Q () s') :
    (solo t ok).wpProg Q (op (.addNlink i delta)) s := by
  rintro r s' ⟨hok, x, he⟩
  rw [h.eq] at hok
  obtain ⟨-, ⟨⟩⟩ := map_logWrite he
  exact hQ _ hok (h.write rfl fun h => h)

theorem initInode_hold {major minor : Int} (h : Hold s0 ino L M s)
    (hQ : ∀ s', Hold s0 (initAt ino i major minor) L M s' → Q () s') :
    (solo t ok).wpProg Q (op (.initInode i major minor)) s := by
  rintro r s' ⟨-, x, he⟩
  obtain ⟨-, ⟨⟩⟩ := map_logWrite he
  exact hQ _ (h.write rfl fun h => h)

theorem addEnt_hold (h : Hold s0 ino L M s)
    (hQ : ∀ s', ok ino (.addEnt d name i) → Hold s0 (entAt ino d ⟨i, name⟩) L M s' → Q () s') :
    (solo t ok).wpProg Q (op (.addEnt d name i)) s := by
  rintro r s' ⟨hok, x, he⟩
  rw [h.eq] at hok
  simp only [kernel, exec] at he
  split at he
  · obtain ⟨-, ⟨⟩⟩ := map_logWrite he
    refine hQ _ hok (h.write ?_ fun h => h)
    rw [h.eq]
    rfl
  · cases he

theorem iallocFrom_hold {Q : Inum → State N → Prop} (hty : type ≠ .free) :
    ∀ (n j : Nat) {s : State N}, Hold s0 ino L M s →
      (∀ (i : Nat) s', j ≤ i → i < j + n → (ino i).type = .free → ok ino (.iallocTry i type) →
        Hold s0 (allocAt ino i type) (i ::ₘ L) M s' → Q i s') →
      (solo t ok).wpProg Q (iallocFrom type n j) s
  | 0, _, _, _, _ => by
    rintro r - ⟨-, -, -⟩; cases r
  | n + 1, j, s, h, hQ => by
    unfold iallocFrom
    refine wp_bind.2 ?_
    rintro r s1 ⟨hok, x, he⟩
    rw [h.eq] at hok
    simp only [kernel, exec] at he
    rw [h.eq] at he
    split at he
    · rename_i hfree
      obtain ⟨-, ⟨⟩⟩ := map_logWrite he
      refine wp_bind.2 (iget_hold (h.write rfl fun _ => hty) fun s' h' => ?_)
      exact hQ j s' le_rfl (by omega) hfree hok h'
    · cases he
      exact iallocFrom_hold hty n (j + 1) h fun i s' h1 h2 => hQ i s' (by omega) (by omega)

theorem ialloc_hold {Q : Inum → State N → Prop} (hty : type ≠ .free) (h : Hold s0 ino L M s)
    (hQ : ∀ (i : Nat) s', 1 ≤ i → i < s0.ninodes → (ino i).type = .free → ok ino (.iallocTry i type) →
      Hold s0 (allocAt ino i type) (i ::ₘ L) M s' → Q i s') : (solo t ok).wpProg Q (ialloc type) s := by
  refine wp_bind.2 ?_
  rintro r s1 ⟨-, x, he⟩
  cases he
  rw [h.ninodes]
  refine iallocFrom_hold hty _ _ h fun i s' h1 h2 => hQ i s' h1 ?_
  omega

/-! ## Directories -/

theorem dirlookup_hold {Q : Option (Nat × Inum) → State N → Prop} (h : Hold s0 ino L M s)
    (h0 : (ino d).type = .dir → findEnt name (ino d).ents 0 = none → Q none s)
    (h1 : ∀ off j s', (ino d).type = .dir → findEnt name (ino d).ents 0 = some (off, j) → Hold s0 ino (j ::ₘ L) M s' →
      Q (some (off, j)) s') : (solo t ok).wpProg Q (dirlookup d name) s := by
  refine wp_bind.2 ?_
  rintro r s' ⟨-, x, he⟩
  simp only [kernel, exec] at he
  rw [h.eq] at he
  split at he
  · rename_i hd
    cases he
    rcases hf : findEnt name (ino d).ents 0 with _ | ⟨off, j⟩
    · exact h0 hd hf
    · exact wp_bind.2 (iget_hold h fun s' h' => h1 off j s' hd hf h')
  · cases he

theorem dirlink_hold {Q : Int → State N → Prop} (h : Hold s0 ino L M s)
    (hbad : ∀ off j, (ino d).type = .dir → findEnt name (ino d).ents 0 = some (off, j) →
      Safe s0 ino (L + M) j ∧ ∀ s', Hold s0 ino L M s' → Q (-1) s')
    (hadd : ∀ s', (ino d).type = .dir → findEnt name (ino d).ents 0 = none → ok ino (.addEnt d name i) →
      Hold s0 (entAt ino d ⟨i, name⟩) L M s' → Q 0 s') : (solo t ok).wpProg Q (dirlink d name i) s := by
  refine wp_bind.2 (dirlookup_hold h (fun hd hf => ?_) fun off j s1 hd hf h1 => ?_)
  · exact wp_bind.2 (addEnt_hold h fun s' hok h' => hadd s' hd hf hok h')
  · obtain ⟨hsafe, hQ⟩ := hbad off j hd hf; exact wp_bind.2 (iput_safe h1 hsafe hQ)

theorem mustDirlink_hold (h : Hold s0 ino L M s)
    (hQ : ∀ s', (ino d).type = .dir → findEnt name (ino d).ents 0 = none → ok ino (.addEnt d name i) →
      Hold s0 (entAt ino d ⟨i, name⟩) L M s' → Q () s') : (solo t ok).wpProg Q (mustDirlink d name i) s := by
  refine wp_bind.2 (wp_bind.2 (dirlookup_hold h (fun hd hf => ?_) fun off j s1 hd hf h1 => ?_))
  · exact wp_bind.2 (addEnt_hold h fun s' hok h' => hQ s' hd hf hok h')
  · refine wp_any fun _ s2 => ?_
    rintro r - ⟨-, -, -⟩; cases r

/-! ## Paths -/

/-- The inodes a path can lead to from the root or from `c`. -/
def Known (ino : Inum → Inode) (c i : Inum) : Prop :=
  i = ROOTINO ∨ i = c ∨ ∃ d, (ino d).type = .dir ∧ ∃ e ∈ (ino d).ents, e.inum = i

theorem known_of_findEnt {c off j : Nat} (hd : (ino d).type = .dir) (hf : findEnt name (ino d).ents 0 = some (off, j)) :
    Known ino c j := by
  obtain ⟨e, he, hj, -, -⟩ := findEnt_mem hf
  exact .inr (.inr ⟨d, hd, e, he, hj⟩)

theorem known_of_resolve {v : Inum × Name} :
    ∀ {names : List Name} {ip : Inum}, Known ino c ip → resolve ino parent ip names = some v → Known ino c v.1
  | [], ip, hip, h => by
    cases parent
    · cases h; exact hip
    · cases h
  | name :: rest, ip, hip, h => by
    obtain ⟨hd, ⟨-, -, rfl⟩ | ⟨-, off, next, hf, h⟩⟩ := resolve_cons h
    · exact hip
    · exact known_of_resolve (known_of_findEnt hd hf) h

theorem known_startOf (ino : Inum → Inode) (s : State N) (t : Fin N) (path : List UInt8) :
    Known ino (s.cwd t) (startOf s t path) := by
  unfold startOf
  split
  · exact .inl rfl
  · exact .inr (.inl rfl)

/-- Every `iput` of the walk puts a directory that somebody else has, or that has a name. -/
theorem namexLoop_hold {Q : Option (Inum × Name) → State N → Prop}
    (hsafe : ∀ i, Known ino c i → Safe s0 ino (L + M) i) :
    ∀ (names : List Name) {ip : Inum} {s : State N}, Known ino c ip → Hold s0 ino (ip ::ₘ L) M s →
      (∀ s', resolve ino parent ip names = none → Hold s0 ino L M s' → Q none s') →
      (∀ v s', resolve ino parent ip names = some v → Hold s0 ino (v.1 ::ₘ L) M s' → Q (some v) s') →
      (solo t ok).wpProg Q (namexLoop parent ip names) s
  | [], ip, s, hip, h, h0, h1 => by
    unfold namexLoop
    cases parent
    · exact h1 (ip, []) s rfl h
    · exact wp_bind.2 (iput_safe h (hsafe ip hip) fun s' h' => h0 s' rfl h')
  | name :: rest, ip, s, hip, h, h0, h1 => by
    unfold namexLoop
    refine wp_bind.2 (ilock_hold h fun s1 _ h' => wp_bind.2 (stat_hold h' ?_))
    by_cases hd : (ino ip).type = .dir
    · rw [if_neg (not_not_intro hd)]
      by_cases hp : parent = true ∧ rest = []
      · rw [if_pos hp]
        refine wp_bind.2 (iunlock_hold h' fun s2 _ h2 => h1 (ip, name) s2 ?_ h2)
        simp [resolve, hd, hp]
      · rw [if_neg hp]
        refine wp_bind.2 (dirlookup_hold h' (fun _ hf => ?_) fun off next s2 _ hf h2 => ?_)
        · refine wp_bind.2 (iunlockput_safe h' (hsafe ip hip) fun s2 h2 => h0 s2 ?_ h2)
          simp [resolve, hd, hp, hf]
        · refine wp_bind.2 (iunlockput_safe h2 ((hsafe ip hip).mono ?_) fun s3 h3 => ?_)
          · exact Multiset.add_le_add_right (Multiset.le_cons_self L next)
          · have hr := resolve_step hd hp hf
            exact namexLoop_hold hsafe rest (known_of_findEnt hd hf) h3 (fun s' hn => h0 s' (hr.trans hn))
              fun v s' hv => h1 v s' (hr.trans hv)
    · rw [if_pos hd]
      refine wp_bind.2 (iunlockput_safe h' (hsafe ip hip) fun s2 h2 => h0 s2 ?_ h2)
      simp [resolve, hd]

theorem namex_hold {Q : Option (Inum × Name) → State N → Prop}
    (hsafe : ∀ i, Known ino (s0.cwd t) i → Safe s0 ino (L + M) i) (h : Hold s0 ino L M s)
    (h0 : ∀ s', resolve ino parent (startOf s0 t path) (elems path) = none → Hold s0 ino L M s' → Q none s')
    (h1 : ∀ v s', resolve ino parent (startOf s0 t path) (elems path) = some v → Hold s0 ino (v.1 ::ₘ L) M s' →
      Q (some v) s') : (solo t ok).wpProg Q (namex parent path) s := by
  have hip := known_startOf ino s0 t path
  refine wp_bind.2 ?_
  unfold start
  unfold startOf at h0 h1 hip
  by_cases hp : path.head? = some slash
  · rw [if_pos hp] at h0 h1 hip ⊢
    exact wp_bind.2 (iget_hold h fun s' h' => namexLoop_hold hsafe _ hip h' h0 h1)
  · rw [if_neg hp] at h0 h1 hip ⊢
    rintro r s' ⟨-, x, he⟩
    cases he
    have h' : Hold s0 ino (s0.cwd t ::ₘ L) M (s.modEntry (s.cwd t) fun e => { e with ref := e.ref + 1 }) := by
      rw [← h.cwd]; exact h.addRef rfl (fun h => h) fun _ => rfl
    rw [h.cwd] at h' ⊢
    exact namexLoop_hold hsafe _ hip h' h0 h1

theorem namei_hold {Q : Option Inum → State N → Prop}
    (hsafe : ∀ i, Known ino (s0.cwd t) i → Safe s0 ino (L + M) i) (h : Hold s0 ino L M s)
    (h0 : ∀ s', resolve ino false (startOf s0 t path) (elems path) = none → Hold s0 ino L M s' → Q none s')
    (h1 : ∀ v s', resolve ino false (startOf s0 t path) (elems path) = some v → Hold s0 ino (v.1 ::ₘ L) M s' →
      Q (some v.1) s') : (solo t ok).wpProg Q (namei path) s :=
  wp_bind.2 (namex_hold hsafe h h0 h1)

end

end Xv6.Fs
