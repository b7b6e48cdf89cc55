/-
`make_duplicate` copies exactly. A run of it that no other process interrupts ends with 0 and a new file
under the name with `_copy`, with the bytes of the source, and nothing else changed but the entry that names
it; or with 1 or -1 and nothing changed. It ends with -1 when the path is short enough and names nothing, and
only then. The loop copies a block at a time in transactions of its own; with the source locked and the copy
known to nobody, none of its rounds can fail.
-/
import Xv6.Fs.Failed
import Xv6.Fs.Dinode

namespace Xv6.Fs

open Base Logic Function

variable {N : Nat} {ino : Inum → Inode} {off : Nat} {dip dp : Inum} {data : List UInt8} {name : Name}

/-- A walk that finds its way still does when directories have got entries under new names. -/
theorem resolve_mono {ino' : Inum → Inode} {parent : Bool} {v : Inum × Name}
    (hdir : ∀ d, (ino d).type = .dir → (ino' d).type = .dir)
    (hfind : ∀ d name off j, (ino d).type = .dir → findEnt name (ino d).ents 0 = some (off, j) →
      findEnt name (ino' d).ents 0 = some (off, j)) :
    ∀ (names : List Name) (ip : Inum), resolve ino parent ip names = some v → resolve ino' parent ip names = some v
  | [], ip, h => h
  | name :: rest, ip, h => by
    obtain ⟨hd, ⟨hp, hnil, rfl⟩ | ⟨hp, off, next, hf, h⟩⟩ := resolve_cons h
    · simp [resolve, hdir ip hd, hp, hnil]
    · rw [resolve_step (hdir ip hd) hp (hfind ip name off next hd hf)]
      exact resolve_mono hdir hfind rest next h

def Names (s : State N) (t : Fin N) (path : List UInt8) (i : Inum) : Prop :=
  ∃ name, resolve s.ino false (startOf s t path) (elems path) = some (i, name)

section

variable {t : Fin N} {ok : (Inum → Inode) → Op → Prop} {s0 s : State N} {L M : Multiset Inum}

/-! ## The copy loop -/

/-- After a write of the whole contents of a file. -/
def dataAt (ino : Inum → Inode) (i : Inum) (data : List UInt8) : Inum → Inode :=
  update ino i { ino i with data := data }

theorem dataAt_self (ino : Inum → Inode) (i : Inum) (data : List UInt8) :
    dataAt ino i data i = { ino i with data := data } :=
  update_self ..

variable {i sip : Inum} {Q : Int → State N → Prop}

theorem dataAt_of_ne {j : Inum} (hj : j ≠ i) (ino : Inum → Inode) (data : List UInt8) : dataAt ino i data j = ino j :=
  update_of_ne hj ..

theorem dataAt_dataAt (ino : Inum → Inode) (i : Inum) (a b : List UInt8) :
    dataAt (dataAt ino i a) i b = dataAt ino i b := by
  simp [dataAt]

theorem Inode.size_file {ip : Inode} (h : ip.type = .file) : ip.size = ip.data.length ∧ ip.bytes = ip.data := by
  unfold Inode.size Inode.bytes; rw [h]; exact ⟨rfl, rfl⟩

theorem readi_hold {Q : Option (List UInt8) → State N → Prop} {n : Nat} (hty : (ino i).type = .file)
    (hoff : off ≤ (ino i).data.length) (h : Hold s0 ino L M s) (hQ : Q (some (((ino i).data.drop off).take n)) s) :
    (solo t ok).wpProg Q (op (.readi i off n)) s := by
  rintro r s' ⟨-, x, he⟩
  simp only [kernel, exec] at he
  obtain ⟨hsize, hbytes⟩ := Inode.size_file hty
  rw [h.eq, hsize, hbytes, if_neg (by omega)] at he
  cases he
  exact hQ

theorem writei_exact {Q : Option Nat → State N → Prop} {bytes : List UInt8} (hty : (ino i).type = .file)
    (hoff : off ≤ (ino i).data.length) (hmax : off + bytes.length ≤ MAXFILE * BSIZE) (h : Hold s0 ino L M s)
    (hQ : ∀ s', Hold s0 (dataAt ino i (writeData (ino i).data off bytes)) L M s' → Q (some bytes.length) s') :
    (solo t ok).wpProg Q (op (.writei i off bytes)) s := by
  rintro r s' ⟨-, x, he⟩
  simp only [kernel, exec] at he
  rw [h.eq, if_neg (not_not.2 hty), (Inode.size_file hty).1, if_neg (by omega)] at he
  obtain ⟨-, ⟨⟩⟩ := map_logWrite he
  exact hQ _ (h.write rfl fun h => h)

theorem copyLoop_hold (hne : sip ≠ dip) (hsize : data.length ≤ MAXFILE * BSIZE) :
    ∀ (rounds off : Nat) {ino : Inum → Inode} {s : State N}, (ino sip).type = .file → (ino sip).data = data →
      (ino dip).type = .file → (ino dip).data = data.take off → off ≤ data.length → data.length < off + rounds →
      Hold s0 ino (dip ::ₘ L) (sip ::ₘ M) s →
      (∀ s', Hold s0 (dataAt ino dip data) (dip ::ₘ L) (sip ::ₘ M) s' → (solo t ok).wpProg Q (copyDone sip dip 0) s') →
      (solo t ok).wpProg Q (copyLoop sip dip rounds off) s := by
  intro rounds
  induction rounds with
  | zero => intro off ino s _ _ _ _ _ hr; omega
  | succ rounds ih =>
    intro off ino s hsty hsd hdty hdd hoff hr h hQ
    unfold copyLoop
    refine wp_bind.2 (stat_hold h ?_)
    rw [(Inode.size_file hsty).1, hsd]
    by_cases hend : data.length ≤ off
    · rw [if_pos hend]
      refine hQ s ?_
      have heq : dataAt ino dip data = ino := by
        rw [List.take_of_length_le hend] at hdd
        unfold dataAt
        rw [← hdd]
        exact update_eq_self ..
      rwa [heq]
    · rw [if_neg hend]
      refine wp_bind.2 (readi_hold hsty (by rw [hsd]; exact hoff) h ?_)
      rw [hsd]
      -- the piece read
      have hlen : ((data.drop off).take (min (data.length - off) BSIZE)).length = min (data.length - off) BSIZE := by
        rw [List.length_take, List.length_drop]; omega
      have hB : 0 < BSIZE := by decide
      rcases hp : (data.drop off).take (min (data.length - off) BSIZE) with _ | ⟨b, bs⟩
      · rw [hp] at hlen; simp only [List.length_nil] at hlen; omega
      · rw [hp] at hlen
        have hdl : (ino dip).data.length = off := by
          rw [hdd, List.length_take, min_eq_left hoff]
        refine wp_bind.2 (op_calm h rfl fun _ s1 h1 => wp_bind.2 (ilock_hold h1 fun s2 _ h2 => wp_bind.2 ?_))
        refine writei_exact hdty (le_of_eq hdl.symm) (by omega) h2 fun s3 h3 => ?_
        refine wp_bind.2 (iunlock_hold h3 fun s4 _ h4 => wp_bind.2 (endOp_hold h4 fun s5 h5 => ?_))
        rw [if_neg (by simp)]
        have hnew : writeData (ino dip).data off (b :: bs) = data.take (off + (b :: bs).length) := by
          unfold writeData
          rw [hdd, List.take_take, min_self, List.drop_of_length_le (by rw [List.length_take]; omega), List.append_nil,
            ← hp, ← List.take_add, hp, hlen]
        rw [hnew] at h5
        refine ih (off + (b :: bs).length) ?_ ?_ ?_ ?_ ?_ ?_ h5 ?_
        · rw [dataAt_of_ne hne]; exact hsty
        · rw [dataAt_of_ne hne]; exact hsd
        · rw [dataAt_self]; exact hdty
        · rw [dataAt_self]
        · omega
        · have : 0 < (b :: bs).length := Nat.succ_pos _; omega
        · rw [dataAt_dataAt]; exact hQ

/-! ## The call -/

/-- The inodes after a copy: the new file and its entry. -/
def copyAt (ino : Inum → Inode) (dp : Inum) (name : Name) (dip : Inum) (data : List UInt8) : Inum → Inode :=
  dataAt (createAt ino dp name dip .file 0 0) dip data

/-- The allocation and the copy, with the directory and the source locked. -/
theorem dupNew_hold (hsip : Safe s0 ino 0 sip) (hdp : Safe s0 ino 0 dp) (hsty : (ino sip).type = .file)
    (hdir : (ino dp).type = .dir) (hsize : (ino sip).data.length ≤ MAXFILE * BSIZE)
    (h : Hold s0 ino 0 (dp ::ₘ sip ::ₘ 0) s)
    (hQ : ∀ dip s', 1 ≤ dip → (ino dip).type = .free → Hold s0 (copyAt ino dp name dip (ino sip).data) 0 0 s' →
    Q 0 s') : (solo t ok).wpProg Q (dupNew sip dp name) s := by
  refine wp_bind.2 (ialloc_hold (by decide) h fun dip s1 hpos _ hfree _ h1 => ?_)
  have hds : sip ≠ dip := fun e => by rw [e, hfree] at hsty; cases hsty
  have hdd : dip ≠ dp := fun e => by rw [e, hdir] at hfree; cases hfree
  have hsd : sip ≠ dp := fun e => by rw [e, hdir] at hsty; cases hsty
  refine wp_bind.2 (ilock_hold h1 fun s2 _ h2 => wp_bind.2 (initInode_hold h2 fun s3 h3 => wp_bind.2 ?_))
  refine mustDirlink_hold h3 fun s4 _ _ _ h4 => ?_
  have h4 : Hold s0 (createAt ino dp name dip .file 0 0) 0 (dp ::ₘ dip ::ₘ sip ::ₘ 0) s4 := by
    rw [Multiset.cons_swap]; simpa only [createAt, reduceCtorEq, if_false] using h4
  refine wp_bind.2 (iunlockput_safe h4 (hdp.createAt hdd.symm) fun s5 h5 =>
    wp_bind.2 (op_calm h5 rfl fun _ s6 h6 => ?_))
  refine wp_bind.2 (iunlock_hold h6 fun s7 _ h7 => wp_bind.2 (endOp_hold h7 fun s8 h8 => wp_bind.2 (stat_hold h8 ?_)))
  have hsame : createAt ino dp name dip .file 0 0 sip = ino sip := createAt_other hsd hds ino
  have hnew := createAt_new name hdd ino
  refine copyLoop_hold hds hsize _ 0 (by rw [hsame]; exact hsty) (by rw [hsame]) (by rw [hnew]) (by rw [hnew]; rfl)
    zero_le ?_ h8 fun s9 h9 => ?_
  · rw [hsame, (Inode.size_file hsty).1]; omega
  · have hkeep : copyAt ino dp name dip (ino sip).data sip = ino sip := (dataAt_of_ne hds ..).trans hsame
    have hsip' : Safe s0 (copyAt ino dp name dip (ino sip).data) (dip ::ₘ 0 + 0) sip :=
      (hsip.congr (by rw [hkeep]) (by rw [hkeep])).mono (Multiset.zero_le _)
    refine wp_bind.2 (iunlockput_safe h9 hsip' fun s10 h10 =>
      wp_bind.2 (iput_safe h10 (.of_nlink ?_) fun s11 h11 => ?_))
    · rw [dataAt_self, hnew]; exact one_ne_zero
    · exact hQ dip s11 hpos hfree h11

/-- What a call of `make_duplicate` that began in `s0` has done when it answers `a`. -/
inductive Duplicated (t : Fin N) (s0 : State N) (src : List UInt8) : Int → State N → Prop
  | long {s : State N} (hlen : 128 ≤ src.length + suf.length) (h : Hold s0 s0.ino 0 0 s) : Duplicated t s0 src 1 s
  | missing {s : State N} (hlen : src.length + suf.length < 128) (hno : ∀ i, ¬ Names s0 t src i)
      (h : Hold s0 s0.ino 0 0 s) : Duplicated t s0 src (-1) s
  | failed {s : State N} {sip : Inum} (hsrc : Names s0 t src sip) (h : Hold s0 s0.ino 0 0 s) : Duplicated t s0 src 1 s
  | copied {s : State N} {sip dp dip : Inum} {name : Name} (hsrc : Names s0 t src sip)
      (hsty : (s0.ino sip).type = .file)
      (hdst : resolve s0.ino true (startOf s0 t (src ++ suf)) (elems (src ++ suf)) = some (dp, name))
      (hf : findEnt name (s0.ino dp).ents 0 = none) (hpos : 1 ≤ dip) (hfree : (s0.ino dip).type = .free)
      (h : Hold s0 (copyAt s0.ino dp name dip (s0.ino sip).data) 0 0 s) : Duplicated t s0 src 0 s

theorem dupBad_hold (hsip : Safe s0 ino 0 sip) (h : Hold s0 ino 0 (sip ::ₘ 0) s)
    (hQ : ∀ s', Hold s0 ino 0 0 s' → Q 1 s') : (solo t ok).wpProg Q (dupBad sip) s :=
  wp_bind.2 (iunlockput_safe h hsip fun _ h1 => finish_hold h1 hQ)

theorem makeDuplicate_hold (hs : Sound s0 t) (hsize : ∀ i, (s0.ino i).data.length ≤ MAXFILE * BSIZE)
    (src : List UInt8) :
    (solo t ok).wpProg (Duplicated t s0 src) (makeDuplicate src) s0 := by
  have hstart := Hold.start hs.live
  unfold makeDuplicate
  split
  · exact .long ‹_› hstart
  · rename_i hlen
    refine wp_bind.2 (op_calm hstart rfl fun _ s1 h1 => wp_bind.2 (namei_hold hs.safe h1 ?_ ?_))
    · intro s2 hr h2
      refine finish_hold h2 fun s3 h3 => .missing (by omega) (fun i hi => ?_) h3
      obtain ⟨name, hi⟩ := hi
      rw [hr] at hi
      cases hi
    · rintro ⟨sip, v⟩ s2 hr h2
      have hsrc : Names s0 t src sip := ⟨v, hr⟩
      have hsip := hs.safe sip (known_of_resolve (known_startOf _ s0 t src) hr)
      have hbad : ∀ {s' : State N}, Hold s0 s0.ino 0 (sip ::ₘ 0) s' →
          (solo t ok).wpProg (Duplicated t s0 src) (dupBad sip) s' :=
        fun {s'} h' => dupBad_hold hsip h' fun s'' h'' => .failed hsrc h''
      refine wp_bind.2 (ilock_hold h2 fun s3 _ h3 => wp_bind.2 (stat_hold h3 ?_))
      split
      · exact hbad h3
      · rename_i hsty
        have hsty : (s0.ino sip).type = .file := not_not.1 hsty
        -- the second walk, with the source locked
        have hsafe : ∀ i, Known s0.ino (s0.cwd t) i → Safe s0 s0.ino (0 + sip ::ₘ 0) i := fun i hi =>
          (hs.safe i hi).mono (Multiset.zero_le _)
        refine wp_bind.2 (namex_hold hsafe h3 (fun s4 _ h4 => hbad h4) ?_)
        rintro ⟨dp, name⟩ s4 hr' h4
        have hdp := hs.safe dp (known_of_resolve (known_startOf _ s0 t (src ++ suf)) hr')
        refine wp_bind.2 (ilock_hold h4 fun s5 _ h5 =>
          wp_bind.2 (dirlookup_hold h5 (fun hdir hf => ?_) fun off tmp s6 hdir hf h6 => ?_))
        · refine dupNew_hold hsip hdp hsty hdir (hsize sip) h5 fun dip s6 hpos hfree h6 => ?_
          exact .copied hsrc hsty hr' hf hpos hfree h6
        · have htmp := hs.safe tmp (known_of_findEnt hdir hf)
          refine wp_bind.2 (iunlockput_safe h6 (hdp.mono (Multiset.zero_le _)) fun s7 h7 => ?_)
          exact wp_bind.2 (iput_safe h7 (htmp.mono (Multiset.zero_le _)) fun s8 h8 => hbad h8)

theorem names_copyAt {src : List UInt8} (hpos : 1 ≤ dip)
    (hdst : resolve s0.ino true (startOf s0 t src) (elems src) = some (dp, name))
    (hf : findEnt name (s0.ino dp).ents 0 = none) (hfree : (s0.ino dip).type = .free)
    (h : Hold s0 (copyAt s0.ino dp name dip data) 0 0 s) : Names s t src dip := by
  have hdir : (s0.ino dp).type = .dir := dir_of_resolve hdst
  have hne : dp ≠ dip := fun e => by rw [e, hfree] at hdir; cases hdir
  have hdp : s.ino dp = { s0.ino dp with ents := putEnt ⟨dip, name⟩ (s0.ino dp).ents } := by
    rw [h.eq, copyAt, dataAt_of_ne hne, createAt_dir hne]
  -- a directory is not the new inode
  have hother : ∀ d, (s0.ino d).type = .dir → d ≠ dp → s.ino d = s0.ino d := fun d hd hdd => by
    have hdi : d ≠ dip := fun e => by rw [e, hfree] at hd; cases hd
    rw [h.eq, copyAt, dataAt_of_ne hdi, createAt_other hdd hdi]
  have hwalk : resolve s.ino true (startOf s0 t src) (elems src) = some (dp, name) := by
    refine resolve_mono (fun d hd => ?_) (fun d n off j hd hfd => ?_) _ _ hdst
    · by_cases hdd : d = dp
      · rw [hdd, hdp]; exact hdir
      · rw [hother d hd hdd]; exact hd
    · by_cases hdd : d = dp
      · subst hdd
        have hnn : n ≠ name := fun e => by rw [e, hf] at hfd; cases hfd
        rw [hdp]
        exact (findEnt_putEnt_ne (e := ⟨dip, name⟩) hnn _ _).trans hfd
      · rw [hother d hd hdd]; exact hfd
  have hstart : startOf s t src = startOf s0 t src := by
    unfold startOf; rw [h.cwd]
  obtain ⟨init, w, hw⟩ : ∃ init w, elems src = init ++ [w] := by
    rcases List.eq_nil_or_concat (elems src) with he | ⟨init, w, he⟩
    · rw [he] at hdst; cases hdst
    · exact ⟨init, w, by rw [he, List.concat_eq_append]⟩
  rw [hw] at hwalk
  obtain ⟨rfl, -, hres⟩ := resolve_of_parent init _ hwalk
  obtain ⟨k, hk⟩ := findEnt_putEnt_self (e := ⟨dip, name⟩) (Nat.one_le_iff_ne_zero.1 hpos) _ 0 hf
  refine ⟨[], ?_⟩
  rw [hstart, hw]
  refine hres k dip ?_
  rw [hdp]
  exact hk

end

/-- A `make_duplicate` that runs alone and returns, from any sound state: on 0 the path with `_copy` names a
new regular file with one link and the bytes of the source, and besides the entry that names it nothing has
changed; on 1 and -1 nothing has; and it returns -1 exactly when the path is short enough and names nothing. -/
theorem make_duplicate_exact {t : Fin N} {s s' : State N} {src : List UInt8} {a : Int} (hs : Sound s t)
    (hsize : ∀ i, (s.ino i).data.length ≤ MAXFILE * BSIZE) (hr : Returns t (.makeDuplicate src) s a s') :
    (a = 0 ∨ a = 1 ∨ a = -1) ∧
    (a = 0 → ∃ sip dip dp name, Names s t src sip ∧ (s.ino sip).type = .file ∧
      Names s' t (src ++ suf) dip ∧ (s.ino dip).type = .free ∧
      s'.ino dip = { type := .file, nlink := 1, data := (s.ino sip).data } ∧
      (s.ino dp).type = .dir ∧ findEnt name (s.ino dp).ents 0 = none ∧
      s'.ino dp = { s.ino dp with ents := putEnt ⟨dip, name⟩ (s.ino dp).ents } ∧
      (∀ n, n ≠ name → findEnt n (s'.ino dp).ents 0 = findEnt n (s.ino dp).ents 0) ∧
      (∀ i, i ≠ dip → i ≠ dp → s'.ino i = s.ino i) ∧
      s'.ofile = s.ofile ∧ s'.cwd = s.cwd ∧ ∀ i, (s'.cache i).ref = (s.cache i).ref) ∧
    (a = -1 ∨ a = 1 → Unchanged s s') ∧
    (a = -1 ↔ src.length + suf.length < 128 ∧ ∀ i, ¬ Names s t src i) := by
  have hsolo : (Call.makeDuplicate src).body.Evals (answers t fun _ _ => True) s a s' :=
    hr.mono fun _ _ _ _ h => ⟨trivial, h⟩
  have hwp : (solo t fun _ _ => True).wpProg (Duplicated t s src) (makeDuplicate src) s :=
    makeDuplicate_hold hs hsize src
  have hd := wp_seq.1 hwp a s' hsolo
  cases hd with
  | long hlen h =>
    refine ⟨.inr (.inl rfl), fun h0 => absurd h0 (by decide), fun _ => h.unchanged,
      ⟨fun h1 => absurd h1 (by decide), ?_⟩⟩
    rintro ⟨hlt, -⟩
    omega
  | missing hlen hno h =>
    exact ⟨.inr (.inr rfl), fun h0 => absurd h0 (by decide), fun _ => h.unchanged, ⟨fun _ => ⟨hlen, hno⟩, fun _ => rfl⟩⟩
  | failed hsrc h =>
    refine ⟨.inr (.inl rfl), fun h0 => absurd h0 (by decide), fun _ => h.unchanged,
      ⟨fun h1 => absurd h1 (by decide), ?_⟩⟩
    rintro ⟨-, hno⟩
    exact absurd hsrc (hno _)
  | @copied _ sip dp dip name hsrc hsty hdst hf hpos hfree h =>
    have hdir : (s.ino dp).type = .dir := dir_of_resolve hdst
    have hne : dp ≠ dip := fun e => by rw [e, hfree] at hdir; cases hdir
    have hdp : s'.ino dp = { s.ino dp with ents := putEnt ⟨dip, name⟩ (s.ino dp).ents } := by
      rw [h.eq, copyAt, dataAt_of_ne hne, createAt_dir hne]
    refine ⟨.inl rfl, fun _ => ⟨sip, dip, dp, name, hsrc, hsty, names_copyAt hpos hdst hf hfree h, hfree, ?_, hdir, hf,
      hdp, ?_, ?_, h.ofile, h.cwd, fun i => ?_⟩, fun h1 => absurd h1 (by decide), ⟨fun h1 => absurd h1 (by decide), ?_⟩⟩
    · rw [h.eq, copyAt, dataAt_self, createAt_new _ hne.symm]
    · intro n hn; rw [hdp]; exact findEnt_putEnt_ne (e := ⟨dip, name⟩) hn _ _
    · intro i hi hid; rw [h.eq, copyAt, dataAt_of_ne hi, createAt_other hid hi]
    · rw [h.ref i]; simp
    · rintro ⟨-, hno⟩; exact absurd hsrc (hno _)

def fileWith (data : List UInt8) :
    State 1 := { (oneFile 1 false).mem with ino := dataAt (oneFile 1 false).mem.ino 2 data }

theorem fileWith_ino (data : List UInt8) (i : Inum) :
    ∃ bs, (fileWith data).ino i = { (oneFile 1 false).mem.ino i with data := bs } ∧
    (bs = data ∨ bs = []) := by
  by_cases hi : i = 2
  · subst hi; exact ⟨data, dataAt_self (oneFile 1 false).mem.ino 2 data, .inl rfl⟩
  · refine ⟨[], (dataAt_of_ne hi (oneFile 1 false).mem.ino data).trans ?_, .inr rfl⟩
    simp only [oneFile, if_neg hi]
    split <;> rfl

theorem sound_fileWith (data : List UInt8) : Sound (fileWith data) 0 := by
  refine ⟨fun i hv => ?_, fun i _ hty hn => ?_⟩
  · obtain ⟨bs, hi, -⟩ := fileWith_ino data i
    rw [hi]
    exact sound_oneFile.live i hv
  · obtain ⟨bs, hi, -⟩ := fileWith_ino data i
    rw [hi] at hty hn
    exact absurd hn (oneFile_nlink hty)

/-- A file of 600 bytes, which is copied in two rounds. -/
theorem make_duplicate_two_rounds : ∃ s' dip, Returns 0 (.makeDuplicate fName) (fileWith (List.replicate 600 65)) 0 s' ∧
    Names s' 0 (fName ++ suf) dip ∧ s'.ino dip = { type := .file, nlink := 1, data := List.replicate 600 65 } := by
  have he : (((Call.makeDuplicate fName).body.eval (fun s o => exec 0 s 1 o) (fileWith (List.replicate 600 65))).map
      Prod.fst) = some 0 := by decide +kernel
  obtain ⟨⟨a, s'⟩, he, rfl⟩ := Option.map_eq_some_iff.1 he
  have hr := returns_of_eval he
  have hsize : ∀ i, ((fileWith (List.replicate 600 65)).ino i).data.length ≤ MAXFILE * BSIZE := by
    intro i
    obtain ⟨bs, hi, rfl | rfl⟩ := fileWith_ino (List.replicate 600 65) i
    · rw [hi, List.length_replicate]; decide
    · rw [hi]; exact zero_le
  obtain ⟨-, hok, -⟩ := make_duplicate_exact (sound_fileWith _) hsize hr
  obtain ⟨sip, dip, dp, name, ⟨v, hsrc⟩, -, hdst, -, hino, -⟩ := hok rfl
  have hsip : resolve (fileWith (List.replicate 600 65)).ino false (startOf (fileWith (List.replicate 600 65)) 0 fName)
      (elems fName) = some (2, []) := by decide +kernel
  rw [hsip] at hsrc
  cases hsrc
  exact ⟨s', dip, hr, hdst, hino⟩

end Xv6.Fs
