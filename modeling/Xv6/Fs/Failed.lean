/-
Calls that fail. A call on a path that answers -1 leaves the inodes, the descriptors, the current
directories and the reference counts as they were, with one exception: `open` with `O_CREATE` of a name
that is not there creates the file before it looks for a free file and a free descriptor, and does not
remove it when there is none.
-/
import Xv6.Fs.Ends

namespace Xv6.Fs

open Base Logic

variable {N : Nat} {s s' : State N} {t : Fin N} {r : Int}

/-! ## Definitions -/

/-- The cache has no free inode, as in every state reached (`reach_holds`), and an inode without links that a path
leads to is in use. The second is asked of the disk: no call checks link counts against the entries. -/
structure Sound (s : State N) (t : Fin N) : Prop where
  live : ∀ i, (s.cache i).valid = true → (s.ino i).type ≠ .free
  used : ∀ i, Known s.ino (s.cwd t) i → (s.ino i).type ≠ .free → (s.ino i).nlink = 0 → 0 < (s.cache i).ref

/-- Directories, file contents, link counts, descriptors, current directories and references are the
same. -/
structure Unchanged (s s' : State N) : Prop where
  ino : s'.ino = s.ino
  ofile : s'.ofile = s.ofile
  cwd : s'.cwd = s.cwd
  ref : ∀ i, (s'.cache i).ref = (s.cache i).ref

def Call.onPath : Call → Bool
  | .sysLink _ _ | .sysUnlink _ | .sysOpen _ _ | .sysMkdir _ | .sysMknod _ _ _ | .sysChdir _ => true
  | _ => false

/-- An `open` that has to create its file. -/
def OpensNew (t : Fin N) (s : State N) : Call → Prop
  | .sysOpen path omode => omode &&& O_CREATE ≠ 0 ∧ ∃ dp name,
      resolve s.ino true (startOf s t path) (elems path) = some (dp, name) ∧ findEnt name (s.ino dp).ents 0 = none
  | _ => False

/-- The answer of a process that nobody interrupts. -/
def Returns (t : Fin N) (k : Call) (s : State N) (a : Int) (s' : State N) : Prop :=
  k.body.Evals ((kernel N).answers t) s a s'

theorem Hold.unchanged (h : Hold s s.ino 0 0 s') : Unchanged s s' :=
  ⟨h.eq, h.ofile, h.cwd, fun i => by rw [h.ref i]; simp⟩

theorem Sound.safe (h : Sound s t) (i : Inum) (hi : Known s.ino (s.cwd t) i) :
    Safe s s.ino 0 i := by
  rintro hty ⟨hn, h0, -⟩
  have := h.used i hi hty hn
  omega

/-! ## Each call -/

section

variable {ok : (Inum → Inode) → Op → Prop} {s0 : State N} {ino : Inum → Inode}

/-- The call has undone what it did if it answers -1. -/
def Undone (s0 : State N) (ino : Inum → Inode) (a : Int) (s : State N) : Prop := a = -1 → Hold s0 ino 0 0 s

theorem finish_undone (h : Hold s0 ino 0 0 s) : (solo t ok).wpProg (Undone s0 ino) (finish r) s :=
  finish_hold h fun _ h' _ => h'

theorem finish_done (hr : r ≠ -1) : (solo t ok).wpProg (Undone s0 ino) (finish r) s :=
  wp_any fun _ _ h => absurd h hr

theorem sysLink_undone (hs : Sound s0 t) (old new : List UInt8) :
    (solo t ok).wpProg (Undone s0 s0.ino) (sysLink old new) s0 :=
  sysLink_hold hs.safe (Hold.start hs.live) (fun _ h _ => h) fun _ _ _ _ _ _ _ _ _ _ =>
    wp_any fun _ _ => wp_any fun _ _ => finish_done (by decide)

theorem sysUnlink_undone (hs : Sound s0 t) (path : List UInt8) :
    (solo t ok).wpProg (Undone s0 s0.ino) (sysUnlink path) s0 := by
  refine sysUnlink_hold hs.safe (Hold.start hs.live) (fun _ h _ => h) fun dp name off ip s1 _ _ _ _ _ _ => ?_
  -- nothing fails after the write of the directory
  have hdone : ∀ s2, (solo t ok).wpProg (Undone s0 s0.ino) (unlinkDone dp ip) s2 := fun s2 =>
    wp_any fun _ _ => wp_any fun _ _ => wp_any fun _ _ => finish_done (by decide)
  refine wp_any fun _ s2 => ?_
  split
  · exact wp_any fun _ s3 => hdone s3
  · exact hdone s2

theorem createNew_some {Q : Option Inum → State N → Prop} {dp : Inum} {name : Name} {type : IType} {major minor : Int}
    (hQ : ∀ ip s', Q (some ip) s') : (solo t ok).wpProg Q (createNew dp name type major minor) s := by
  have hlink : ∀ ip s', (solo t ok).wpProg Q (createLink dp name ip) s' := fun ip s' =>
    wp_any fun _ _ => wp_any fun _ s2 => hQ ip s2
  refine wp_any fun ip _ => wp_any fun _ _ => wp_any fun _ s3 => ?_
  split
  · exact wp_any fun _ s4 => hlink ip s4
  · exact hlink ip s3

theorem sysMake_undone (hs : Sound s0 t) (path : List UInt8) {type : IType} (major minor : Int) :
    (solo t ok).wpProg (Undone s0 s0.ino) (sysMake path type major minor) s0 := by
  refine wp_bind.2 (op_calm (Hold.start hs.live) rfl fun _ s1 h1 => wp_bind.2 (create_hold hs.safe h1 ?_ ?_ ?_))
  · intro s2 _ h2; exact finish_undone h2
  · intro dp name off ip s2 _ _ _ _ _; exact wp_any fun _ _ => finish_done (by decide)
  · intro dp name s2 _ _ _ _
    exact createNew_some fun ip s3 => wp_any fun _ _ => finish_done (by decide)

theorem sysChdir_undone (hs : Sound s0 t) (path : List UInt8) :
    (solo t ok).wpProg (Undone s0 s0.ino) (sysChdir path) s0 :=
  sysChdir_hold hs.safe (Hold.start hs.live) (fun _ h _ => h) fun _ _ _ _ =>
    wp_any fun _ _ => wp_any fun _ _ => finish_done (by decide)

theorem openFile_undone {ip : Inum} {omode : UInt32} (hip : Safe s0 ino 0 ip) (h : Hold s0 ino 0 (ip ::ₘ 0) s) :
    (solo t ok).wpProg (Undone s0 ino) (openFile ip omode) s :=
  openFile_hold hip h (fun _ h' _ => h') fun fd _ _ hr => absurd hr (by omega)

/-- An `open` that fails. -/
def OpenUndone (t : Fin N) (s0 : State N) (path : List UInt8) (omode : UInt32) (a : Int) (s : State N) : Prop :=
  a = -1 → (OpensNew t s0 (.sysOpen path omode) → s.ino ≠ s0.ino) ∧
    (¬ OpensNew t s0 (.sysOpen path omode) → Hold s0 s0.ino 0 0 s)

theorem sysOpen_undone (hs : Sound s0 t) (path : List UInt8) (omode : UInt32) :
    (solo t ok).wpProg (OpenUndone t s0 path omode) (sysOpen path omode) s0 := by
  -- where nothing is created
  have hold : ¬ OpensNew t s0 (.sysOpen path omode) → ∀ a s, Undone s0 s0.ino a s → OpenUndone t s0 path omode a s :=
    fun hn a s h ha => ⟨fun hnew => absurd hnew hn, fun _ => h ha⟩
  refine wp_bind.2 (op_calm (Hold.start hs.live) rfl fun _ s1 h1 => wp_bind.2 ?_)
  unfold openInode
  by_cases hc : omode &&& O_CREATE ≠ 0
  · rw [if_pos hc]
    refine create_hold hs.safe h1 (fun s2 hn h2 => ?_) (fun dp name off ip s2 hr hf _ _ h2 => ?_)
      fun dp name s2 hr hd hf h2 => ?_
    · refine wp_mono (hold ?_) (finish_undone h2)
      rintro ⟨-, dp, name, hr, hf⟩
      exact hn dp name hr hf
    · have hd : (s0.ino dp).type = .dir := dir_of_resolve hr
      refine wp_mono (hold ?_) (openFile_undone (hs.safe ip (known_of_findEnt hd hf)) h2)
      rintro ⟨-, dp', name', hr', hf'⟩
      rw [hr] at hr'
      cases hr'
      rw [hf] at hf'
      cases hf'
    · refine createNew_hold (by decide) h2 fun ip hm => ?_
      have hne : ip ≠ dp := fun h => by
        have := hm.free; rw [h, hd] at this; cases this
      have hnew := createAt_new name hne s0.ino
      refine ⟨(hs.safe dp (known_of_resolve (known_startOf _ s0 t path) hr)).createAt hne.symm, fun s3 h3 => ?_⟩
      refine wp_mono (fun a s h ha => ⟨fun _ hs' => ?_, fun hno => absurd ⟨hc, dp, name, hr, hf⟩ hno⟩)
        (openFile_undone (.of_nlink (by rw [hnew]; decide)) h3)
      -- the file that has been created stays
      have hty := congrArg Inode.type (congrFun ((h ha).eq.symm.trans hs') ip)
      rw [hnew, hm.free] at hty
      cases hty
  · rw [if_neg hc]
    have hno : ¬ OpensNew t s0 (.sysOpen path omode) := fun h => hc h.1
    refine openPath_hold hs.safe h1 (fun s2 h2 => ?_) fun ip s2 hip h2 => ?_
    · exact wp_mono (hold hno) (finish_undone h2)
    · exact wp_mono (hold hno) (openFile_undone (hs.safe ip hip) h2)

end

/-- A failed call has changed nothing, unless it is an `open` that has created its file. -/
theorem failed_call_unchanged {t : Fin N} {s s' : State N} {k : Call} (hs : Sound s t) (hk : k.onPath = true)
    (hr : Returns t k s (-1) s') : Unchanged s s' ↔ ¬ OpensNew t s k := by
  have hsolo : k.body.Evals (answers t fun _ _ => True) s (-1) s' := hr.mono fun _ _ _ _ h => ⟨trivial, h⟩
  -- the calls other than `open`
  have hother : ¬ OpensNew t s k → (solo t fun _ _ => True).wpProg (Undone s s.ino) k.body s →
      (Unchanged s s' ↔ ¬ OpensNew t s k) := fun hn hw =>
    ⟨fun _ => hn, fun _ => (wp_seq.1 hw (-1) s' hsolo rfl).unchanged⟩
  cases k with
  | sysLink old new => exact hother (fun h => h) (sysLink_undone hs old new)
  | sysUnlink path => exact hother (fun h => h) (sysUnlink_undone hs path)
  | sysMkdir path => exact hother (fun h => h) (sysMake_undone hs path 0 0)
  | sysMknod path major minor => exact hother (fun h => h) (sysMake_undone hs path major minor)
  | sysChdir path => exact hother (fun h => h) (sysChdir_undone hs path)
  | sysOpen path omode =>
    obtain ⟨hnew, hold⟩ := wp_seq.1 (sysOpen_undone hs path omode) (-1) s' hsolo rfl
    exact ⟨fun hu hn => hnew hn hu.ino, fun hn => (hold hn).unchanged⟩
  | fileread fd n | filewrite fd bytes | sysClose fd | makeDuplicate src => cases hk

/-! ## A full descriptor table -/

/-- The path `/g`. -/
def gPath : List UInt8 := [47, 103]

/-- A root directory with a file, and a process whose descriptors are all in use. -/
def fullTable : State 1 := { (oneFile 1 false).mem with nfile := NOFILE, ofile := fun _ _ => some {} }

theorem oneFile_nlink {i : Inum} (h : ((oneFile 1 false).mem.ino i).type ≠ .free) :
    ((oneFile 1 false).mem.ino i).nlink ≠ 0 := by
  revert h
  simp only [oneFile]
  split
  · decide
  · split
    · decide
    · exact fun h => absurd rfl h

theorem sound_oneFile : Sound (oneFile 1 false).mem 0 :=
  ⟨(oneFile_atRest 1 false).live, fun _ _ hty hn => absurd hn (oneFile_nlink hty)⟩

/-- A call that ends when each of its writes is of one block. -/
theorem returns_of_eval {k : Call} {a : Int} (h : k.body.eval (fun s o => exec t s 1 o) s = some (a, s')) :
    Returns t k s a s' :=
  Prog.evals_of_eval (fun _ _ _ _ he => ⟨1, he⟩) k.body h

theorem unlink_missing_unchanged : ∃ s', Returns 0 (.sysUnlink gPath) (oneFile 1 false).mem (-1) s' ∧
    Unchanged (oneFile 1 false).mem s' := by
  have he : (((Call.sysUnlink gPath).body.eval (fun s o => exec 0 s 1 o) (oneFile 1 false).mem).map Prod.fst) =
      some (-1) := by
    decide +kernel
  obtain ⟨⟨a, s'⟩, he, rfl⟩ := Option.map_eq_some_iff.1 he
  have hr := returns_of_eval he
  exact ⟨s', hr, (failed_call_unchanged sound_oneFile rfl hr).2 fun h => h⟩

/-- The `open` fails for want of a descriptor, and the file is there. -/
theorem failed_open_creates : Sound fullTable 0 ∧ ∃ s', Returns 0 (.sysOpen gPath O_CREATE) fullTable (-1) s' ∧
    findEnt [103] (fullTable.ino ROOTINO).ents 0 = none ∧ findEnt [103] (s'.ino ROOTINO).ents 0 = some (3, 3) ∧
    ¬ Unchanged fullTable s' := by
  refine ⟨⟨sound_oneFile.live, sound_oneFile.used⟩, ?_⟩
  have he : (((Call.sysOpen gPath O_CREATE).body.eval (fun s o => exec 0 s 1 o) fullTable).map fun r =>
      (r.1, findEnt [103] (r.2.ino ROOTINO).ents 0)) = some (-1, some (3, 3)) := by
    decide +kernel
  obtain ⟨⟨a, s'⟩, he, heq⟩ := Option.map_eq_some_iff.1 he
  obtain ⟨rfl, hf⟩ := Prod.ext_iff.1 heq
  refine ⟨s', returns_of_eval he, by decide, hf, fun hu => ?_⟩
  dsimp only at hf
  rw [hu.ino] at hf
  exact absurd hf (by decide)

end Xv6.Fs
