/-
How each call ends while no other process moves. A call is followed up to where it cannot fail any more;
what it does from there on is left to the caller of the rule, which knows the inodes and the references
at that point.
-/
import Xv6.Fs.Hold

namespace Xv6.Fs

open Base Logic Function

variable {N : Nat} {t : Fin N} {ok : (Inum → Inode) → Op → Prop} {s0 s : State N}
  {ino : Inum → Inode} {L M : Multiset Inum} {i d : Inum} {name : Name} {ip dp : Inum} {H : Multiset Inum}
  {type : IType} {major minor : Int} {omode : UInt32}

/-! ## Ends -/

theorem endOp_hold {Q : Unit → State N → Prop} (h : Hold s0 ino L M s) (hQ : ∀ s', Hold s0 ino L M s' → Q () s') :
    (solo t ok).wpProg Q endOp s := by
  refine wp_bind.2 (op_calm h rfl fun (last : Bool) s1 h1 => ?_)
  cases last
  · exact hQ s1 h1
  · exact op_calm h1 rfl fun _ s2 h2 => hQ s2 h2

variable {Q : Int → State N → Prop} {path : List UInt8}

theorem finish_hold {r : Int} (h : Hold s0 ino L M s) (hQ : ∀ s', Hold s0 ino L M s' → Q r s') :
    (solo t ok).wpProg Q (finish r) s :=
  wp_bind.2 (endOp_hold h hQ)

/-! ## create -/

/-- The inodes after `create` of a name that was not there. -/
def createAt (ino : Inum → Inode) (dp : Inum) (name : Name) (ip : Inum) (type : IType) (major minor : Int) :
    Inum → Inode :=
  let ino := initAt (allocAt ino ip type) ip major minor
  if type = .dir then entAt (entAt (entAt (linkAt ino dp 1) ip ⟨ip, dot⟩) ip ⟨dp, dotdot⟩) dp ⟨ip, name⟩
  else entAt ino dp ⟨ip, name⟩

theorem createAt_other (hd : i ≠ dp) (hi : i ≠ ip) (ino : Inum → Inode) :
    createAt ino dp name ip .file 0 0 i = ino i := by
  simp [createAt, entAt, initAt, allocAt, hd, hi]

theorem createAt_new (name : Name) (h : ip ≠ dp) (ino : Inum → Inode) :
    createAt ino dp name ip .file 0 0 ip = { type := .file, nlink := 1 } := by
  simp [createAt, entAt, initAt, allocAt, h]

theorem createAt_dir (h : dp ≠ ip) (ino : Inum → Inode) :
    createAt ino dp name ip .file 0 0 dp = { ino dp with ents := putEnt ⟨ip, name⟩ (ino dp).ents } := by
  simp [createAt, entAt, initAt, allocAt, h]

theorem Safe.congr {ino' : Inum → Inode} (h : Safe s0 ino H i) (ht : (ino' i).type = (ino i).type)
    (hn : (ino' i).nlink = (ino i).nlink) : Safe s0 ino' H i := by
  unfold Safe Last at h ⊢
  rwa [ht, hn]

theorem Safe.createAt (h : Safe s0 ino 0 dp) (hne : dp ≠ ip) : Safe s0 (createAt ino dp name ip .file 0 0) H dp :=
  (h.congr (by rw [createAt_dir hne]) (by rw [createAt_dir hne])).mono (Multiset.zero_le _)

/-- The inode that `create` has taken, and the writes it was allowed. -/
structure Taken (ok : (Inum → Inode) → Op → Prop) (s0 : State N) (ino : Inum → Inode) (dp : Inum) (name : Name)
    (ip : Inum) (type : IType) (major minor : Int) : Prop where
  pos : 1 ≤ ip
  lt : ip < s0.ninodes
  free : (ino ip).type = .free
  alloc : ok ino (.iallocTry ip type)
  link : type = .dir → ok (initAt (allocAt ino ip type) ip major minor) (.addNlink dp 1)
  ent : type ≠ .dir → ok (initAt (allocAt ino ip type) ip major minor) (.addEnt dp name ip)

theorem createNew_hold {Q : Option Inum → State N → Prop} (hty : type ≠ .free)
    (h : Hold s0 ino L (dp ::ₘ M) s)
    (hQ : ∀ ip, Taken ok s0 ino dp name ip type major minor →
      Safe s0 (createAt ino dp name ip type major minor) (L + ip ::ₘ M) dp ∧
        ∀ s', Hold s0 (createAt ino dp name ip type major minor) L (ip ::ₘ M) s' → Q (some ip) s') :
    (solo t ok).wpProg Q (createNew dp name type major minor) s := by
  refine wp_bind.2 (ialloc_hold hty h fun ip s1 hpos hlt hfree halloc h1 => ?_)
  refine wp_bind.2 (ilock_hold h1 fun s2 _ h2 => wp_bind.2 (initInode_hold h2 fun s3 h3 => ?_))
  -- the put of the directory at the end
  have hend : ∀ {s4 : State N}, Taken ok s0 ino dp name ip type major minor →
      Hold s0 (createAt ino dp name ip type major minor) L (ip ::ₘ dp ::ₘ M) s4 →
      (solo t ok).wpProg Q (do iunlockput dp; return some ip) s4 := fun {s4} hm h4 => by
    rw [Multiset.cons_swap] at h4
    exact wp_bind.2 (iunlockput_safe h4 (hQ ip hm).1 (hQ ip hm).2)
  by_cases hdir : type = .dir
  · rw [if_pos hdir]
    refine wp_bind.2 (wp_bind.2 (addNlink_hold h3 fun s4 hlink h4 =>
      wp_bind.2 (mustDirlink_hold h4 fun s5 _ _ _ h5 => ?_)))
    refine mustDirlink_hold h5 fun s6 _ _ _ h6 => wp_bind.2 (mustDirlink_hold h6 fun s7 _ _ _ h7 => ?_)
    refine hend ⟨hpos, hlt, hfree, halloc, fun _ => hlink, fun h => absurd hdir h⟩ ?_
    simp only [createAt, if_pos hdir]
    exact h7
  · rw [if_neg hdir]
    refine wp_bind.2 (mustDirlink_hold h3 fun s4 _ _ hent h4 => ?_)
    refine hend ⟨hpos, hlt, hfree, halloc, fun h => absurd h hdir, fun _ => hent⟩ ?_
    simp only [createAt, if_neg hdir]
    exact h4

theorem create_hold {Q : Option Inum → State N → Prop}
    (hsafe : ∀ i, Known ino (s0.cwd t) i → Safe s0 ino 0 i) (h : Hold s0 ino 0 0 s)
    (hnone : ∀ s', (∀ dp name, resolve ino true (startOf s0 t path) (elems path) = some (dp, name) →
      findEnt name (ino dp).ents 0 ≠ none) → Hold s0 ino 0 0 s' → Q none s')
    (hfile : ∀ dp name off ip s', resolve ino true (startOf s0 t path) (elems path) = some (dp, name) →
      findEnt name (ino dp).ents 0 = some (off, ip) → type = .file → (ino ip).type = .file →
      Hold s0 ino 0 (ip ::ₘ 0) s' → Q (some ip) s')
    (hnew : ∀ dp name s', resolve ino true (startOf s0 t path) (elems path) = some (dp, name) → (ino dp).type = .dir →
      findEnt name (ino dp).ents 0 = none → Hold s0 ino 0 (dp ::ₘ 0) s' →
      (solo t ok).wpProg Q (createNew dp name type major minor) s') :
    (solo t ok).wpProg Q (create path type major minor) s := by
  refine wp_bind.2 (namex_hold hsafe h (fun s1 hr h1 => ?_) fun ⟨dp, name⟩ s1 hr h1 => ?_)
  · refine hnone s1 (fun dp name hr' => ?_) h1
    rw [hr] at hr'
    cases hr'
  · have hdp : Known ino (s0.cwd t) dp := known_of_resolve (known_startOf _ s0 t path) hr
    refine wp_bind.2 (ilock_hold h1 fun s2 _ h2 =>
      wp_bind.2 (dirlookup_hold h2 (fun hd hf => ?_) fun off ip s3 hd hf h3 => ?_))
    · exact hnew dp name s2 hr hd hf h2
    · have hip : Known ino (s0.cwd t) ip := known_of_findEnt hd hf
      refine wp_bind.2 (iunlockput_safe h3 ((hsafe dp hdp).mono (Multiset.zero_le _)) fun s4 h4 => ?_)
      refine wp_bind.2 (ilock_hold h4 fun s5 _ h5 => wp_bind.2 (stat_hold h5 ?_))
      split
      · rename_i hty; exact hfile dp name off ip s5 hr hf hty.1 hty.2 h5
      · refine wp_bind.2 (iunlockput_safe h5 (hsafe ip hip) fun s6 h6 => hnone s6 (fun dp' name' hr' => ?_) h6)
        rw [hr] at hr'
        cases hr'
        rw [hf]
        exact Option.some_ne_none _

/-! ## link and unlink -/

theorem known_linkAt {c : Inum} {delta : Int} : Known (linkAt ino ip delta) c i ↔ Known ino c i := by
  have hd : ∀ d, (linkAt ino ip delta d).type = (ino d).type ∧
      (linkAt ino ip delta d).ents = (ino d).ents := fun d => by
    unfold linkAt
    by_cases h : d = ip
    · subst h; simp
    · simp [h]
  unfold Known
  simp only [hd]

theorem linkAt_linkAt (ino : Inum → Inode) (ip : Inum) : linkAt (linkAt ino ip 1) ip (-1) = ino := by
  unfold linkAt; simp

theorem linkBad_hold (hip : Safe s0 ino 0 ip) (h : Hold s0 (linkAt ino ip 1) (ip ::ₘ 0) 0 s)
    (hQ : ∀ s', Hold s0 ino 0 0 s' → Q (-1) s') :
    (solo t ok).wpProg Q (linkBad ip) s := by
  refine wp_bind.2 (ilock_hold h fun s1 _ h1 => wp_bind.2 (addNlink_hold h1 fun s2 _ h2 => ?_))
  rw [linkAt_linkAt] at h2
  exact wp_bind.2 (iunlockput_safe h2 hip fun s3 h3 => finish_hold h3 hQ)

section

variable (hsafe : ∀ i, Known ino (s0.cwd t) i → Safe s0 ino 0 i) (h : Hold s0 ino 0 0 s)
  (hbad : ∀ s', Hold s0 ino 0 0 s' → Q (-1) s')

include hsafe h hbad

/-- `sys_link` fails with nothing changed, or has written the entry. -/
theorem sysLink_hold {old new : List UInt8}
    (hdone : ∀ ip dp name s', (ino ip).type ≠ .free → (ino ip).type ≠ .dir → (ino dp).type = .dir →
      findEnt name (ino dp).ents 0 = none → ok (linkAt ino ip 1) (.addEnt dp name ip) →
      Hold s0 (entAt (linkAt ino ip 1) dp ⟨ip, name⟩) (ip ::ₘ 0) (dp ::ₘ 0) s' →
      (solo t ok).wpProg Q (do iunlockput dp; iput ip; finish 0) s') : (solo t ok).wpProg Q (sysLink old new) s := by
  refine wp_bind.2 (op_calm h rfl fun _ s1 h1 => wp_bind.2 (namei_hold hsafe h1 ?_ ?_))
  · intro s2 _ h2; exact finish_hold h2 hbad
  · rintro ⟨ip, v⟩ s2 hr h2
    have hip := hsafe ip (known_of_resolve (known_startOf _ s0 t old) hr)
    refine wp_bind.2 (ilock_hold h2 fun s3 hfree h3 => wp_bind.2 (stat_hold h3 ?_))
    split
    · exact wp_bind.2 (iunlockput_safe h3 hip fun s4 h4 => finish_hold h4 hbad)
    · rename_i hdir
      refine wp_bind.2 (addNlink_hold h3 fun s4 _ h4 => wp_bind.2 (iunlock_hold h4 fun s5 _ h5 => ?_))
      -- the second walk, with one name more for `ip`
      have hsafe' : ∀ i, Known (linkAt ino ip 1) (s0.cwd t) i → Safe s0 (linkAt ino ip 1) (ip ::ₘ 0) i := fun i hi => by
        by_cases hii : i = ip
        · exact .of_mem (hii ▸ Multiset.mem_cons_self ..)
        · have hsame : linkAt ino ip 1 i = ino i := update_of_ne hii ..
          have := (hsafe i (known_linkAt.1 hi)).mono (Multiset.zero_le (ip ::ₘ 0))
          unfold Safe Last at this ⊢
          rwa [hsame]
      refine wp_bind.2 (namex_hold hsafe' h5 (fun s6 _ h6 => linkBad_hold hip h6 hbad) ?_)
      rintro ⟨dp, name⟩ s6 hr h6
      have hdp := hsafe' dp (known_of_resolve (known_startOf _ s0 t new) hr)
      refine wp_bind.2 (ilock_hold h6 fun s7 _ h7 =>
        wp_bind.2 (dirlink_hold h7 (fun off j hd hf => ?_) fun s8 hd hf hok h8 => ?_))
      · refine ⟨(hsafe' j (known_of_findEnt hd hf)).mono (Multiset.le_add_right ..), fun s8 h8 => ?_⟩
        exact wp_bind.2 (iunlockput_safe h8 hdp fun s9 h9 => linkBad_hold hip h9 hbad)
      · have hne : dp ≠ ip := fun hne => by
          rw [hne, linkAt, update_self] at hd; exact hdir hd
        rw [linkAt, update_of_ne hne] at hd hf
        exact hdone ip dp name s8 hfree hdir hd hf hok h8

/-- What `sys_unlink` does once it writes. -/
def unlinkWrite (dp : Inum) (off : Nat) (ip : Inum) (type : IType) : Fs.M Int := do
  op (.clearEnt dp off)
  if type = .dir then do
    op (.addNlink dp (-1))
    unlinkDone dp ip
  else unlinkDone dp ip

/-- `sys_unlink` fails with nothing changed, or is about to clear the entry of `ip`. -/
theorem sysUnlink_hold
    (hdone : ∀ dp name off ip s', ¬ (name = dot ∨ name = dotdot) → (ino dp).type = .dir →
      findEnt name (ino dp).ents 0 = some (off, ip) → 1 ≤ (ino ip).nlink →
      ((ino ip).type = .dir → isdirempty (ino ip) = true) → Hold s0 ino 0 (ip ::ₘ dp ::ₘ 0) s' →
      (solo t ok).wpProg Q (unlinkWrite dp off ip (ino ip).type) s') : (solo t ok).wpProg Q (sysUnlink path) s := by
  refine wp_bind.2 (op_calm h rfl fun _ s1 h1 => wp_bind.2 (namex_hold hsafe h1 ?_ ?_))
  · intro s2 _ h2; exact finish_hold h2 hbad
  · rintro ⟨dp, name⟩ s2 hr h2
    have hdp := hsafe dp (known_of_resolve (known_startOf _ s0 t path) hr)
    have hback : ∀ {s3 : State N}, Hold s0 ino 0 (dp ::ₘ 0) s3 → (solo t ok).wpProg Q (unlinkBad dp) s3 :=
      fun {s3} h3 => wp_bind.2 (iunlockput_safe h3 hdp fun s4 h4 => finish_hold h4 hbad)
    refine wp_bind.2 (ilock_hold h2 fun s3 _ h3 => ?_)
    split
    · exact hback h3
    · rename_i hname
      refine wp_bind.2 (dirlookup_hold h3 (fun _ _ => hback h3) fun off ip s4 hd hf h4 => ?_)
      refine wp_bind.2 (ilock_hold h4 fun s5 _ h5 => wp_bind.2 (stat_hold h5 ?_))
      split
      · rintro r - ⟨-, -, -⟩; cases r
      · rename_i hn
        split
        · refine wp_bind.2 (iunlockput_safe h5
            ((hsafe ip (known_of_findEnt hd hf)).mono (Multiset.zero_le _)) fun s6 h6 => ?_)
          exact hback h6
        · rename_i hempty
          refine hdone dp name off ip s5 hname hd hf (by omega) (fun hty => ?_) h5
          simpa [hty] using hempty

end

/-! ## open and chdir -/

/-- The file of a descriptor that has just been opened. -/
def opened (ip : Inum) (omode : UInt32) : File :=
  { ip := some ip, readable := omode &&& O_WRONLY = 0, writable := omode &&& O_WRONLY ≠ 0 ∨ omode &&& O_RDWR ≠ 0 }

/-- `sys_open` fails with the inode put, or gives it to a descriptor. -/
theorem openFile_hold (hip : Safe s0 ino 0 ip) (h : Hold s0 ino 0 (ip ::ₘ 0) s)
    (hbad : ∀ s', Hold s0 ino 0 0 s' → Q (-1) s')
    (hdone : ∀ (fd : Fin NOFILE) s', Hold (s0.setFile t fd (some (opened ip omode))) ino (ip ::ₘ 0) 0 s' →
    Q fd.val s') : (solo t ok).wpProg Q (openFile ip omode) s := by
  have hback : ∀ {s1 : State N}, Hold s0 ino 0 (ip ::ₘ 0) s1 → (solo t ok).wpProg Q (openBad ip) s1 :=
    fun {s1} h1 => wp_bind.2 (iunlockput_safe h1 hip fun s2 h2 => finish_hold h2 hbad)
  refine wp_bind.2 (op_calm h rfl fun (f : Bool) s1 h1 => ?_)
  cases f
  · exact hback h1
  · refine wp_bind.2 ?_
    rintro r s2 ⟨-, x, he⟩
    simp only [kernel, exec] at he
    split at he
    · rename_i fd _
      cases he
      refine wp_bind.2 (iunlock_hold (h1.setFile t fd (some {})) fun s3 _ h3 =>
        wp_bind.2 (endOp_hold h3 fun s4 h4 => wp_bind.2 ?_))
      rintro r s5 ⟨-, y, he⟩
      cases he
      have h5 := fun f => h4.setFile t fd f
      simp only [setFile_setFile] at h5
      exact hdone fd _ (h5 _)
    · cases he; exact wp_bind.2 (op_calm h1 rfl fun _ s3 h3 => hback h3)

theorem openPath_hold {Q : Option Inum → State N → Prop} (hsafe : ∀ i, Known ino (s0.cwd t) i → Safe s0 ino 0 i)
    (h : Hold s0 ino 0 0 s) (hnone : ∀ s', Hold s0 ino 0 0 s' → Q none s')
    (hsome : ∀ ip s', Known ino (s0.cwd t) ip → Hold s0 ino 0 (ip ::ₘ 0) s' → Q (some ip) s') :
    (solo t ok).wpProg Q (openPath path omode) s := by
  refine wp_bind.2 (namei_hold hsafe h (fun s2 _ h2 => hnone s2 h2) ?_)
  rintro ⟨ip, v⟩ s2 hr h2
  have hip := known_of_resolve (known_startOf _ s0 t path) hr
  refine wp_bind.2 (ilock_hold h2 fun s3 _ h3 => wp_bind.2 (stat_hold h3 ?_))
  split
  · exact wp_bind.2 (iunlockput_safe h3 (hsafe ip hip) hnone)
  · exact hsome ip s3 hip h3

theorem sysChdir_hold (hsafe : ∀ i, Known ino (s0.cwd t) i → Safe s0 ino 0 i) (h : Hold s0 ino 0 0 s)
    (hbad : ∀ s', Hold s0 ino 0 0 s' → Q (-1) s') (hdone : ∀ ip s', (ino ip).type = .dir → Hold s0 ino (ip ::ₘ 0) 0 s' →
      (solo t ok).wpProg Q (do let old : Nat ← op (.swapCwd ip); iput old; finish 0) s') :
    (solo t ok).wpProg Q (sysChdir path) s := by
  refine wp_bind.2 (op_calm h rfl fun _ s1 h1 => wp_bind.2 (namei_hold hsafe h1 ?_ ?_))
  · intro s2 _ h2; exact finish_hold h2 hbad
  · rintro ⟨ip, v⟩ s2 hr h2
    have hip := hsafe ip (known_of_resolve (known_startOf _ s0 t path) hr)
    refine wp_bind.2 (ilock_hold h2 fun s3 _ h3 => wp_bind.2 (stat_hold h3 ?_))
    split
    · exact wp_bind.2 (iunlockput_safe h3 hip fun s4 h4 => finish_hold h4 hbad)
    · rename_i hdir
      exact wp_bind.2 (iunlock_hold h3 fun s4 _ h4 => hdone ip s4 (by simpa using hdir) h4)

end Xv6.Fs
