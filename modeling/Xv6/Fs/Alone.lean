/-
`make_duplicate` on its own. While no other process moves, the logic of a call has the file system
itself as its context: `alone` asks that no `acquiresleep` is on a lock the process holds, and goes on
with the state the operation leaves. The directories on the way to the copy are those on the way to
the source, so the walk meets the locked source only if the path goes on behind it, and the name of
the copy is put under the source's lock only if it is a name of the source.
-/
import Xv6.Fs.Runs
import Xv6.Fs.Path

namespace Xv6.Fs

open Base Logic

variable {N : Nat} {t : Fin N} {s s' : State N} {o : Op} {sip dip : Inum} {put parent : Bool} {r : Int}
  {src : List UInt8}

/-! ## One process -/

/-- The process never waits for a lock it holds. -/
def alone (t : Fin N) : Logic Op Op.Ret (State N) where
  wp s o Q := (∀ i put, o = .acquire i put → (s.cache i).lock ≠ some t) ∧
    ∀ x r s', exec t s x o = some (r, s') → Q r s'
  mono hQ h := ⟨h.1, fun x r s' he => hQ r s' (h.2 x r s' he)⟩

/-- Process `t` is about to wait for a lock it holds. -/
def SelfLock (p : Sys N) (t : Fin N) : Prop := ∃ k i put, p.At t k (.acquire i put) ∧ (p.mem.cache i).lock = some t

/-- The steps of process `t` within its call. -/
def By (t : Fin N) (_ : Sys N) : PoolAct (Fin N) Nat Call → Prop
  | .call _ _ => False
  | .step u _ | .sleep u | .ret u => u = t

variable {x : Nat}

theorem not_selfLock_of_alone {k : Call} (h : (alone t).wpProg (fun _ _ => True) k.body s) {p : Sys N}
    (hr : Reach (fun p => p.mem = s ∧ p.thr t = some ⟨k, k.body, false⟩) (kernel N).step (By t) p) :
    ¬ SelfLock p t := by
  have hinv : ∀ k' prog z, p.thr t = some ⟨k', prog, z⟩ → (alone t).wpProg (fun _ _ => True) prog p.mem := by
    refine hr.inv (P := fun p => ∀ k' prog z, p.thr t = some ⟨k', prog, z⟩ →
      (alone t).wpProg (fun _ _ => True) prog p.mem) (fun p hp k' prog z ht => ?_)
      fun p a p' ih hok hs k' prog z ht => ?_
    · rw [hp.2] at ht
      cases ht
      rw [hp.1]
      exact h
    · cases Kernel.step_moves hs with
      | call => exact hok.elim
      | step hu he =>
        cases hok
        simp only [Function.update_self, Option.some.injEq, Thread.mk.injEq] at ht
        obtain ⟨rfl, rfl, rfl⟩ := ht
        exact (ih _ _ _ hu).2 _ _ _ he
      | sleep hu =>
        cases hok
        simp only [Function.update_self, Option.some.injEq, Thread.mk.injEq] at ht
        obtain ⟨rfl, rfl, rfl⟩ := ht
        exact ih _ _ _ hu
      | ret hu => cases hok; simp at ht
  rintro ⟨k', i, put, ⟨z, hn⟩, hl⟩
  obtain ⟨f, ht⟩ := Pool.next_eq_some.1 hn
  exact (hinv k' _ z ht).1 i put rfl hl

/-! ## Operations -/

def Holding (t : Fin N) (L : Finset Inum) (s : State N) : Prop := ∀ i, (s.cache i).lock = some t ↔ i ∈ L

/-- Operations that leave locks, inodes and current directories. -/
def Op.quiet : Op → Bool
  | .beginOp | .endOp | .commit | .load _ | .iget _ | .idupCwd | .putRef _ | .stat _ | .dirFind _ _ | .ninodes
  | .readi _ _ _ | .carry _ => true
  | _ => false

theorem exec_quiet {r : o.Ret} (he : exec t s x o = some (r, s')) (ho : o.quiet = true) :
    s'.ino = s.ino ∧ s'.cwd = s.cwd := by
  refine ⟨(exec_frame he).ino fun h => ?_, (exec_frame he).cwd fun i hi => ?_⟩
  · cases o <;> first | exact h | cases ho
  · subst hi; cases ho

section

variable {L K : Finset Inum} {s0 : State N} {i : Inum}

theorem op_alone {Q : o.Ret → State N → Prop} (h : Holding t L s) (ho : o.lockFree = true)
    (hQ : ∀ x r s', exec t s x o = some (r, s') → Holding t L s' → Q r s') : (alone t).wpProg Q (op o) s := by
  refine ⟨fun j put hj => ?_, fun x r s' he => hQ x r s' he fun j => ?_⟩
  · subst hj; cases ho
  · rw [(exec_frame he).lock ho]; exact h j

/-- Since the call began in `s0`, process `t` has at most freed inodes, and none of `K`. -/
structure Near (t : Fin N) (s0 : State N) (K L : Finset Inum) (s : State N) : Prop where
  lock : Holding t L s
  ino : ∀ i, s.ino i = s0.ino i ∨ (s.ino i).type = .free
  kept : ∀ i ∈ K, s.ino i = s0.ino i
  cwd : s.cwd t = s0.cwd t

namespace Near

theorem start (h : Holding t L s) : Near t s K L s := ⟨h, fun _ => .inl rfl, fun _ _ => rfl, rfl⟩

theorem move {L' : Finset Inum} (h : Near t s0 K L s) (hl : Holding t L' s') (hi : s'.ino = s.ino)
    (hc : s'.cwd = s.cwd) : Near t s0 K L' s' := ⟨hl, hi ▸ h.ino, hi ▸ h.kept, hc ▸ h.cwd⟩

theorem eq_of_type (h : Near t s0 K L s) {ty : IType} (hty : (s.ino i).type = ty) (hne : ty ≠ .free) :
    s.ino i = s0.ino i :=
  (h.ino i).resolve_right fun h0 => hne (hty.symm.trans h0)

end Near

theorem quiet_alone {Q : o.Ret → State N → Prop} (h : Near t s0 K L s) (hl : o.lockFree = true) (ho : o.quiet = true)
    (hQ : ∀ r s', Near t s0 K L s' → Q r s') : (alone t).wpProg Q (op o) s :=
  op_alone h.lock hl fun _ r s' he h' => hQ r s' (h.move h' (exec_quiet he ho).1 (exec_quiet he ho).2)

theorem stat_alone {Q : Inode → State N → Prop} (h : Q (s.ino i) s) : (alone t).wpProg Q (stat i) s := by
  refine ⟨fun j put hj => (nomatch hj), fun x r s' he => ?_⟩
  cases he
  exact h

variable {Q : Unit → State N → Prop} {name : Name}

theorem acquire_alone (h : Near t s0 K L s) (hi : i ∉ L) (hQ : ∀ s', Near t s0 K (insert i L) s' → Q () s') :
    (alone t).wpProg Q (op (.acquire i put)) s := by
  refine ⟨fun j put hj => ?_, fun x r s' he => ?_⟩
  · cases hj; exact fun hl => hi ((h.lock i).1 hl)
  · simp only [exec] at he
    split at he
    · cases he
      refine hQ _ (h.move (fun j => ?_) rfl rfl)
      by_cases hj : j = i
      · subst hj; simp
      · rw [modEntry_of_ne hj, h.lock j]; simp [hj]
    · cases he

theorem release_alone (h : Near t s0 K (insert i L) s) (hi : i ∉ L) (hQ : ∀ s', Near t s0 K L s' → Q () s') :
    (alone t).wpProg Q (op (.release i put)) s := by
  refine ⟨fun j put hj => (nomatch hj), fun x r s' he => ?_⟩
  simp only [exec] at he
  split at he
  · cases he
    refine hQ _ (h.move (fun j => ?_) rfl rfl)
    by_cases hj : j = i
    · subst hj; simpa using hi
    · rw [modEntry_of_ne hj, h.lock j]; simp [hj]
  · cases he

theorem ilock_alone (h : Near t s0 K L s) (hi : i ∉ L) (hQ : ∀ s', Near t s0 K (insert i L) s' → Q () s') :
    (alone t).wpProg Q (ilock i) s :=
  wp_bind.2 (acquire_alone h hi fun _ h1 => quiet_alone h1 rfl rfl fun _ => hQ)

theorem iput_alone (h : Near t s0 K L s) (hi : i ∉ L) (hK : i ∉ K) (hQ : ∀ s', Near t s0 K L s' → Q () s') :
    (alone t).wpProg Q (iput i) s := by
  refine wp_bind.2 (acquire_alone h hi fun s1 h1 => wp_bind.2 (op_alone h1.lock rfl fun x r s2 he h2 => ?_))
  have hfree : Near t s0 K (insert i L) s2 := by
    simp only [exec] at he
    split at he
    · obtain ⟨-, ⟨⟩⟩ := map_logWrite he
      refine ⟨h2, fun j => ?_, fun j hj => ?_, h1.cwd⟩
      · by_cases hj : j = i
        · subst hj; exact .inr (by simp [State.modIno, State.modEntry])
        · simpa [State.modIno, State.modEntry, hj] using h1.ino j
      · have hji : j ≠ i := fun e => hK (e ▸ hj)
        simpa [State.modIno, State.modEntry, hji] using h1.kept j hj
    · cases he; exact h1
  exact wp_bind.2 (release_alone hfree hi fun s3 h3 => quiet_alone h3 rfl rfl fun _ => hQ)

theorem iunlockput_alone (h : Near t s0 K (insert i L) s) (hi : i ∉ L) (hK : i ∉ K)
    (hQ : ∀ s', Near t s0 K L s' → Q () s') : (alone t).wpProg Q (iunlockput i) s :=
  wp_bind.2 (release_alone h hi fun _ h1 => iput_alone h1 hi hK hQ)

theorem dirlookup_alone {Q : Option (Nat × Inum) → State N → Prop} {d : Inum} (h : Near t s0 K L s)
    (h0 : (s.ino d).type = .dir → findEnt name (s.ino d).ents 0 = none → Q none s)
    (h1 : ∀ off j s', (s.ino d).type = .dir → findEnt name (s.ino d).ents 0 = some (off, j) → Near t s0 K L s' →
      Q (some (off, j)) s') : (alone t).wpProg Q (dirlookup d name) s := by
  refine wp_bind.2 ⟨fun j put hj => (nomatch hj), fun x r s' he => ?_⟩
  simp only [exec] at he
  split at he
  · rename_i hd
    cases he
    rcases hf : findEnt name (s.ino d).ents 0 with _ | ⟨off, j⟩
    · exact h0 hd hf
    · exact wp_bind.2 (quiet_alone h rfl rfl fun _ s' h' => h1 off j s' hd hf h')
  · cases he

theorem endOp_alone (h : Near t s0 K L s) (hQ : ∀ s', Near t s0 K L s' → Q () s') : (alone t).wpProg Q endOp s := by
  refine wp_bind.2 (quiet_alone h rfl rfl fun (last : Bool) s1 h1 => ?_)
  cases last
  · exact hQ s1 h1
  · exact quiet_alone h1 rfl rfl fun _ => hQ

theorem finish_alone (h : Near t s0 K L s) : (alone t).wpProg (fun _ _ => True) (finish r) s :=
  wp_bind.2 (endOp_alone h fun _ _ => trivial)

/-! ## The walk -/

theorem mem_visited {ino : Inum → Inode} {ip : Inum} {rest : List Name} :
    ip ∈ visited ino parent ip (name :: rest) := by
  simp only [visited]
  split
  · simp
  · split <;> simp

/-- A walk that does not meet the locks `L` finds what the path named when the call began. -/
theorem namexLoop_alone {Q : Option (Inum × Name) → State N → Prop} (hK : K ⊆ L) :
    ∀ (names : List Name) (ip : Inum) {s : State N}, Near t s0 K L s → (∀ d ∈ visited s0.ino parent ip names, d ∉ L) →
      (∀ r s', Near t s0 K L s' → (∀ v, r = some v → resolve s0.ino parent ip names = some v) → Q r s') →
      (alone t).wpProg Q (namexLoop parent ip names) s
  | [], ip, s, h, hv, hQ => by
    unfold namexLoop
    cases parent
    · exact hQ _ s h fun v hv' => hv'
    · have hip : ip ∉ L := hv ip (by simp [visited])
      exact wp_bind.2 (iput_alone h hip (fun hi => hip (hK hi)) fun s' h' => hQ none s' h' fun v hv' => by cases hv')
  | name :: rest, ip, s, h, hv, hQ => by
    have hip : ip ∉ L := hv ip mem_visited
    have hipK : ip ∉ K := fun hi => hip (hK hi)
    -- nothing found in this directory
    have hend : ∀ {s : State N}, Near t s0 K (insert ip L) s →
        (alone t).wpProg Q (do iunlockput ip; return none) s := fun {s} h =>
      wp_bind.2 (iunlockput_alone h hip hipK fun s' h' => hQ none s' h' fun v hv' => by cases hv')
    unfold namexLoop
    refine wp_bind.2 (ilock_alone h hip fun s1 h1 => wp_bind.2 (stat_alone ?_))
    split
    · exact hend h1
    · rename_i hdir
      have hdir : (s1.ino ip).type = .dir := by simpa using hdir
      have heq := h1.eq_of_type hdir (by simp)
      have hdir0 : (s0.ino ip).type = .dir := heq ▸ hdir
      split
      · rename_i hp
        refine wp_bind.2 (release_alone h1 hip fun s2 h2 => hQ _ s2 h2 fun v hv' => ?_)
        cases hv'
        simp [resolve, hdir0, hp]
      · rename_i hp
        refine wp_bind.2 (dirlookup_alone h1 (fun _ _ => hend h1) fun off next s2 _ hf h2 => ?_)
        rw [heq] at hf
        refine wp_bind.2 (iunlockput_alone h2 hip hipK fun s3 h3 => ?_)
        refine namexLoop_alone hK rest next h3 (fun d hd => hv d ?_) fun r s' h' hr => ?_
        · simp only [visited]
          rw [if_neg (by simpa [hdir0] using hp), hf]
          exact List.mem_cons_of_mem ip hd
        · exact hQ r s' h' fun v hv' => (resolve_step hdir0 hp hf).trans (hr v hv')

/-- The inode a walk starts from. -/
def startOf (s : State N) (t : Fin N) (path : List UInt8) : Inum :=
  if path.head? = some slash then ROOTINO else s.cwd t

theorem namex_alone {Q : Option (Inum × Name) → State N → Prop} {path : List UInt8} (hK : K ⊆ L)
    (h : Near t s0 K L s) (hv : ∀ d ∈ visited s0.ino parent (startOf s0 t path) (elems path), d ∉ L)
    (hQ : ∀ r s', Near t s0 K L s' →
      (∀ v, r = some v → resolve s0.ino parent (startOf s0 t path) (elems path) = some v) →
      Q r s') : (alone t).wpProg Q (namex parent path) s := by
  refine wp_bind.2 ?_
  unfold start
  by_cases hp : path.head? = some slash
  · rw [if_pos hp]
    simp only [startOf, if_pos hp] at hv hQ
    exact wp_bind.2 (quiet_alone h rfl rfl fun _ s' h' => namexLoop_alone hK _ _ h' hv hQ)
  · rw [if_neg hp]
    simp only [startOf, if_neg hp] at hv hQ
    refine op_alone h.lock rfl fun x r s' he hl => ?_
    obtain ⟨hi, hc⟩ := exec_quiet he rfl
    have hr : r = s0.cwd t := by cases he; exact h.cwd
    rw [hr]
    exact namexLoop_alone hK _ _ (h.move hl hi hc) hv hQ

/-! ## make_duplicate -/

theorem dupBad_alone (h : Holding t {sip} s) : (alone t).wpProg (fun _ _ => True) (dupBad sip) s := by
  rw [← insert_empty_eq] at h
  exact wp_bind.2 (iunlockput_alone (.start h) (Finset.notMem_empty _) (Finset.notMem_empty _) fun _ => finish_alone)

theorem copyDone_alone (h : Holding t {sip} s) :
    (alone t).wpProg (fun _ _ => True) (copyDone sip dip r) s := by
  rw [← insert_empty_eq] at h
  refine wp_bind.2 (iunlockput_alone (.start h) (Finset.notMem_empty _) (Finset.notMem_empty _) fun s' h' => ?_)
  exact wp_bind.2 (iput_alone h' (Finset.notMem_empty _) (Finset.notMem_empty _) fun _ _ => trivial)

theorem copyLoop_alone (hne : dip ≠ sip) : ∀ (rounds off : Nat) {s : State N}, Holding t {sip} s →
    (alone t).wpProg (fun _ _ => True) (copyLoop sip dip rounds off) s
  | 0, _, _, h => copyDone_alone h
  | rounds + 1, off, s, h => by
    have hdip : dip ∉ ({sip} : Finset Inum) := by simpa using hne
    unfold copyLoop
    refine wp_bind.2 (stat_alone ?_)
    dsimp only
    split
    · exact copyDone_alone h
    · refine wp_bind.2 (quiet_alone (.start (K := ∅) h) rfl rfl fun r s1 h1 => ?_)
      rcases r with _ | _ | ⟨b, bs⟩
      · exact copyDone_alone h1.lock
      · exact copyDone_alone h1.lock
      · refine wp_bind.2 (quiet_alone h1 rfl rfl fun _ s2 h2 => wp_bind.2 (ilock_alone h2 hdip fun s3 h3 => ?_))
        refine wp_bind.2 (op_alone h3.lock rfl fun _ w s4 _ h4 => ?_)
        refine wp_bind.2 (release_alone (.start (K := ∅) h4) hdip fun s5 h5 =>
          wp_bind.2 (endOp_alone h5 fun s6 h6 => ?_))
        split
        · exact copyDone_alone h6.lock
        · exact copyLoop_alone hne rounds _ h6.lock

theorem iallocFrom_alone {Q : Inum → State N → Prop} {ty : IType} (h : Holding t L s)
    (hQ : ∀ j s', Holding t L s' → (s.ino j).type = .free → (∀ k, k ≠ j → s'.ino k = s.ino k) → Q j s') :
    ∀ n i, (alone t).wpProg Q (iallocFrom ty n i) s
  | 0, _ => ⟨fun _ _ hj => (nomatch hj), fun _ r _ _ => r.elim⟩
  | n + 1, i => by
    refine wp_bind.2 (op_alone h rfl fun x r s1 he h1 => ?_)
    simp only [exec] at he
    split at he
    · rename_i hi
      obtain ⟨-, ⟨⟩⟩ := map_logWrite he
      refine wp_bind.2 (op_alone h1 rfl fun _ _ s3 he3 h3 => hQ i s3 h3 hi fun k hk => ?_)
      rw [(exec_quiet he3 rfl).1]
      exact modIno_of_ne hk
    · cases he; exact iallocFrom_alone h hQ n (i + 1)

theorem dupNew_alone {dp : Inum} (h : Holding t {dp, sip} s) (hne : dp ≠ sip) (hsip : (s.ino sip).type ≠ .free)
    (hdp : (s.ino dp).type ≠ .free) (hf : findEnt name (s.ino dp).ents 0 = none) :
    (alone t).wpProg (fun _ _ => True) (dupNew sip dp name) s := by
  refine wp_bind.2 (wp_bind.2 (op_alone h rfl fun _ n _ he h1 => ?_))
  cases he
  refine iallocFrom_alone h1 (fun dip s2 h2 hfree hino => ?_) _ 1
  have hds : dip ≠ sip := fun heq => hsip (heq ▸ hfree)
  have hdd : dip ≠ dp := fun heq => hdp (heq ▸ hfree)
  refine wp_bind.2 (ilock_alone (.start (K := {dp}) h2) (by simp [hds, hdd]) fun s3 h3 => ?_)
  refine wp_bind.2 (op_alone h3.lock rfl fun x r s4 he h4 => ?_)
  have hdp4 : s4.ino dp = s.ino dp := by
    obtain ⟨-, ⟨⟩⟩ := map_logWrite he
    rw [modIno_of_ne hdd.symm]
    exact (h3.kept dp (Finset.mem_singleton_self dp)).trans (hino dp hdd.symm)
  refine wp_bind.2 (wp_bind.2
    (wp_bind.2 (dirlookup_alone (.start (K := ∅) h4) (fun _ _ => ?_) fun off j _ _ hf' => ?_)))
  · refine wp_bind.2 (op_alone h4 rfl fun _ _ s5 _ h5 => ?_)
    rw [Finset.insert_comm] at h5
    refine wp_bind.2 (iunlockput_alone (.start h5) (by simp [hdd.symm, hne]) (Finset.notMem_empty _) fun s6 h6 => ?_)
    refine wp_bind.2 (quiet_alone h6 rfl rfl fun _ s7 h7 =>
      wp_bind.2 (release_alone h7 (by simpa using hds) fun s8 h8 => ?_))
    exact wp_bind.2 (endOp_alone h8 fun s9 h9 => wp_bind.2 (stat_alone (copyLoop_alone hds _ _ h9.lock)))
  · rw [hdp4, hf] at hf'; cases hf'

/-- The inode that `namei` finds. -/
def lookup (s : State N) (t : Fin N) (path : List UInt8) : Option Inum :=
  (resolve s.ino false (startOf s t path) (elems path)).map Prod.fst

/-- If `src` names a regular file, it does not end in a slash, and with `_copy` behind it it does not
name the same file. -/
def CopyApart (s : State N) (t : Fin N) (src : List UInt8) : Prop :=
  ∀ sip, lookup s t src = some sip → (s.ino sip).type = .file →
    (∃ b, src.getLast? = some b ∧ b ≠ slash) ∧ lookup s t (src ++ suf) ≠ some sip

theorem startOf_append (hsrc : src ≠ []) : startOf s t (src ++ suf) = startOf s t src := by
  obtain ⟨b, bs, rfl⟩ := List.exists_cons_of_ne_nil hsrc; rfl

theorem suf_no_slash : ∀ b ∈ suf, b ≠ slash := by simp [suf, slash]

theorem dupFile_alone (h : Near t s0 {sip} {sip} s) (hc : CopyApart s0 t src) (hsrc : lookup s0 t src = some sip)
    (hfile : (s0.ino sip).type = .file) :
    (alone t).wpProg (fun _ _ => True) (dupFile sip (src ++ suf)) s := by
  obtain ⟨⟨b, hlast, hb⟩, hcopy⟩ := hc sip hsrc hfile
  obtain ⟨init, w, hsrcElems, hdstElems⟩ := elems_append suf_no_slash hb _ src le_rfl hlast
  have hstart : startOf s0 t (src ++ suf) = startOf s0 t src :=
    startOf_append fun h0 => by rw [h0] at hlast; cases hlast
  obtain ⟨⟨j, v⟩, hres, hj⟩ := Option.map_eq_some_iff.1 hsrc
  rw [hsrcElems, show j = sip from hj] at hres
  -- the walk stays off the source, which is no directory
  have hnotdir : (s0.ino sip).type ≠ .dir := by simp [hfile]
  have hoff := not_mem_visited hnotdir ((w ++ suf).take DIRSIZ) init _ hres
  refine wp_bind.2 (namex_alone (Finset.Subset.refl _) h (fun d hd => ?_) fun r s1 h1 hr => ?_)
  · rw [hdstElems, hstart] at hd; exact fun hm => hoff (Finset.mem_singleton.1 hm ▸ hd)
  · rcases r with _ | ⟨dp, name⟩
    · exact dupBad_alone h1.lock
    · have hpar := hr _ rfl
      rw [hdstElems] at hpar
      obtain ⟨rfl, hdp, hcopy'⟩ := resolve_of_parent init _ hpar
      have hne : dp ≠ sip := fun heq => hnotdir (heq ▸ hdp)
      refine wp_bind.2 (ilock_alone h1 (by simpa using hne) fun s2 h2 => ?_)
      have hsip2 : (s2.ino sip).type ≠ .free := by simp [h2.kept sip (by simp), hfile]
      refine wp_bind.2 (dirlookup_alone h2 (fun hd hf => ?_) fun off tmp s3 hd hf h3 => ?_)
      · exact dupNew_alone h2.lock hne hsip2 (by simp [hd]) hf
      · -- what has the copy's name is not the source
        rw [h2.eq_of_type hd (by simp)] at hf
        have htmp : tmp ≠ sip := fun heq => by
          apply hcopy; rw [lookup, hdstElems, hcopy' off tmp hf, heq]; rfl
        refine wp_bind.2 (iunlockput_alone h3 (by simpa using hne) (by simpa using hne) fun s4 h4 => ?_)
        exact wp_bind.2 (iput_alone h4 (by simpa using htmp) (by simpa using htmp) fun s5 h5 => dupBad_alone h5.lock)

end

/-- In any state in which it holds no lock, a `make_duplicate` that runs by itself never waits for a
lock it holds, if its source and the copy keep apart. -/
theorem no_self_lock (s : State N) (t : Fin N) (src : List UInt8) (hfree : ∀ i, (s.cache i).lock ≠ some t)
    (hc : CopyApart s t src) (p : Sys N)
    (hr : Reach (fun p => p.mem = s ∧ p.thr t = some ⟨.makeDuplicate src, makeDuplicate src, false⟩) (kernel N).step
      (By t) p) : ¬ SelfLock p t := by
  refine not_selfLock_of_alone (k := .makeDuplicate src) ?_ hr
  have h : Near t s ∅ ∅ s := .start fun i => by simp [hfree i]
  show (alone t).wpProg (fun _ _ => True) (makeDuplicate src) s
  unfold makeDuplicate
  split
  · trivial
  · refine wp_bind.2 (quiet_alone h rfl rfl fun _ s1 h1 => ?_)
    refine wp_bind.2 (wp_bind.2 (namex_alone (Finset.Subset.refl _) h1 (by simp) fun r s2 h2 hr => ?_))
    rcases r with _ | ⟨sip, v⟩
    · exact finish_alone h2
    · have hsrc : lookup s t src = some sip := by
        rw [lookup, hr _ rfl]; rfl
      refine wp_bind.2 (ilock_alone h2 (by simp) fun s3 h3 => wp_bind.2 (stat_alone ?_))
      split
      · exact dupBad_alone h3.lock
      · rename_i hty
        have hty : (s3.ino sip).type = .file := by simpa using hty
        have heq := h3.eq_of_type hty (by simp)
        refine dupFile_alone ⟨h3.lock, h3.ino, fun i hi => ?_, h3.cwd⟩ hc hsrc (heq ▸ hty)
        rw [Finset.mem_singleton.1 hi]
        exact heq

/-- The one process of a file system with a file `f` duplicates `src`. -/
def duplicating (src : List UInt8) : Sys 1 :=
  { oneFile 1 false with thr := fun _ => some ⟨.makeDuplicate src, makeDuplicate src, false⟩ }

theorem duplicating_run {n : Nat} {check : Sys 1 → Bool}
    (h : (runActs (kernel 1).step (duplicating src) (steps 0 n)).any check = true) :
    ∃ p : Sys 1, Reach (fun p => p.mem = (oneFile 1 false).mem ∧
      p.thr 0 = some ⟨.makeDuplicate src, makeDuplicate src, false⟩) (kernel 1).step (By 0) p ∧ check p = true := by
  refine exists_reach_of_run _ (By 0) ⟨rfl, rfl⟩ _ (fun a ha p => ?_) check h
  rw [List.eq_of_mem_replicate ha]
  rfl

/-- The source `f` is locked, and the walk to `f_copy` locks its directory. -/
theorem no_self_lock_plain : ∃ p : Sys 1, (p.mem.cache 2).lock = some 0 ∧
    p.next 0 = some (.makeDuplicate fName, .acquire 1 false, false) ∧ ¬ SelfLock p 0 := by
  have hrun : (runActs (kernel 1).step (duplicating fName) (steps 0 16)).any (fun p =>
      decide ((p.mem.cache 2).lock = some 0 ∧ p.next 0 = some (.makeDuplicate fName, .acquire 1 false, false))) =
        true := by
    decide +kernel
  have hc : CopyApart (oneFile 1 false).mem 0 fName := by
    intro sip hsip _
    refine ⟨⟨102, by decide, by decide⟩, ?_⟩
    rw [show lookup (oneFile 1 false).mem 0 (fName ++ suf) = none by decide +kernel]
    simp
  obtain ⟨p, hr, hp⟩ := duplicating_run hrun
  obtain ⟨h1, h2⟩ := of_decide_eq_true hp
  exact ⟨p, h1, h2, no_self_lock _ 0 fName (fun i => by simp [(oneFile_atRest 1 false).lock i]) hc p hr⟩

/-- The source is given as `f/`: the walk to `f/_copy` goes through the locked file. -/
theorem slash_self_lock : ∃ p : Sys 1, Reach (fun p => p.mem = (oneFile 1 false).mem ∧
    p.thr 0 = some ⟨.makeDuplicate (fName ++ [slash]), makeDuplicate (fName ++ [slash]), false⟩) (kernel 1).step
    (By 0) p ∧ SelfLock p 0 := by
  have hrun : (runActs (kernel 1).step (duplicating (fName ++ [slash])) (steps 0 26)).any (fun p =>
      decide (p.next 0 = some (.makeDuplicate (fName ++ [slash]), .acquire 2 false, false) ∧
        (p.mem.cache 2).lock = some 0)) = true := by decide +kernel
  obtain ⟨p, hr, hp⟩ := duplicating_run hrun
  obtain ⟨h1, h2⟩ := of_decide_eq_true hp
  exact ⟨p, hr, _, 2, false, ⟨false, h1⟩, h2⟩

end Xv6.Fs
