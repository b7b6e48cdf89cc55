/-
What `exec` ends in. Whatever the file holds, it either leaves the process and all memory in use as they were, or
puts a new address space in place: zeros with the segments of the file, a guard page, and a stack with the arguments.
In both cases the inode is unlocked, the reference given back and the transaction ended.
-/
import Mathlib.Algebra.Order.BigOperators.Group.List
import Xv6.Exec.Stack

namespace Xv6.Exec

open Base Vm Function

/-- The world while `exec` runs, with the inode (`ip`) or after it has been given back. -/
def inode (w : World) (ip : Bool) (s : St) : World :=
  { w with st := s, locked := ip, ref := w.ref + ip.toNat, ops := w.ops + ip.toNat }

def header (file : List UInt8) : Elfhdr := elfhdr ((readi file 0 sizeofElfhdr).getD [])

/-- Zeros, with each loadable segment of the file written to its place in the order of the headers. -/
def loaded (file : List UInt8) : Nat → UInt8 :=
  (phdrs file (header file).phnum (header file).phoff).foldl (segment file) fun _ => 0

/-- The inode is unlocked and given back, and the transaction is over. -/
structure Released (w w' : World) : Prop where
  locked : w'.locked = false
  ref : w'.ref = w.ref
  ops : w'.ops = w.ops

/-- The process is what it was, and so is all memory in use. -/
structure Restored (L : Link) (pool : Nat → Prop) (lab : Nat → Label) (w w' : World) : Prop where
  proc : w'.proc = w.proc
  good : Good L pool w'.st lab
  mem : ∀ f, lab f ≠ .free → w'.st.mem f = w.st.mem f

/-- The process runs the file. -/
structure Started (L : Link) (pool : Nat → Prop) (file : List UInt8) (argv : List (List UInt8)) (w' : World) (g : Nat)
    (lab' : Nat → Label) : Prop where
  good : Good L pool w'.st lab'
  dir : lab' w'.proc.pgdir = .dir
  size : w'.proc.sz = (g + 2) * PGSIZE
  image : Image w'.proc.pgdir g (loaded file) w'.st
  laid : ∃ sp ps, Laid w'.st w'.proc.pgdir g argv w'.proc.tf.esp sp ps

variable {L : Link} {pool : Nat → Prop} {w : World} {s s' : St} {lab lab' : Nat → Label} {d g esp sp entry : Nat}
  {α : Type} {file path : List UInt8} {argv : List (List UInt8)} {ps : List Nat}

section

variable {ip : Bool} {E : Panic → Prop}

theorem vm_ends {Q : α → St → Prop} {c : M α} (h : Ends E Q (c s)) :
    Ends E (fun a w' => ∃ s', w' = inode w ip s' ∧ Q a s') (vm c (inode w ip s)) :=
  h.map fun _ s' hq => ⟨s', rfl, hq⟩

theorem release_bind (f : X α) :
    (iunlockput >>= fun _ => end_op >>= fun _ => f) (inode w true s) = f (inode w false s) := rfl

theorem bad_none (hg : Good L pool s lab) (hm : ∀ f, lab f ≠ .free → s.mem f = w.st.mem f) :
    Ends E (fun ok w' => ok = false ∧ Released w w' ∧ Restored L pool lab w w') (bad L none true (inode w true s)) :=
  ⟨rfl, ⟨rfl, rfl, rfl⟩, ⟨rfl, hg, hm⟩⟩

theorem bad_some (hg : Good L pool w.st lab) (hfree : lab d = .free) (hb : Built L pool w.st lab d s lab') :
    Ends E (fun ok w' => ok = false ∧ Released w w' ∧ Restored L pool lab w w') (bad L (some d) ip (inode w ip s)) := by
  refine (vm_ends (freevm_new hg hfree hb.good hb.keeps)).bind ?_
  rintro _ w1 ⟨s1, hw1, hg1, hm1⟩
  subst hw1
  cases ip with
  | true | false => exact ⟨rfl, ⟨rfl, rfl, rfl⟩, ⟨rfl, hg1, hm1⟩⟩

theorem freevm_other {old : Nat} (hg : Good L pool s lab) (hd : lab d = .dir) (hold : lab old = .dir) (hne : d ≠ old) :
    Ends E (fun _ s' => ∃ lab', Good L pool s' lab' ∧ lab' d = .dir ∧ (∀ u < 1024 * 1024, word s' d u = word s d u) ∧
      ∀ a, a / PGSIZE < UPAGES → present (word s d (a / PGSIZE)) → ubyte s' d a = ubyte s d a) (freevm L old s) := by
  refine (freevm_ends hg hold).post ?_
  rintro _ s' ⟨hg', hm⟩
  have hbase : ∀ {f}, (lab f).base = some d → s'.mem f = s.mem f := fun {f} hb => by
    refine hm f (fun he => ?_) fun h => hne (Option.some.inj (hb.symm.trans h))
    rw [he, hold] at hb
    cases hb
  have hdm : s'.mem d = s.mem d := hm d hne (by rw [hd]; simp [Label.base])
  have hword : ∀ u < 1024 * 1024, word s' d u = word s d u := fun u hu => word_congr hdm fun t ht => hbase (by
    rw [(hg.table d (u / 1024) t).2 ⟨hd, Nat.div_lt_of_lt_mul hu, ht⟩]; rfl)
  refine ⟨_, hg', ?_, hword, fun a ha hp => ?_⟩
  · rw [gone, if_neg, hd]
    rintro (h | h)
    · exact hne h
    · rw [hd] at h; cases h
  · rw [ubyte, ubyte, hword _ (page_lt ha), hbase]
    rw [(hg.user d _ _).2 ⟨hd, ha, hp, rfl⟩]
    rfl

theorem Image.congr {img : Nat → UInt8} (h : Image d g img s) (hword : ∀ u < 1024 * 1024, word s' d u = word s d u)
    (hb : ∀ a < (g + 2) * PGSIZE, ubyte s' d a = ubyte s d a) : Image d g img s' := by
  have hU := h.upages
  have hw : ∀ {u}, u < UPAGES → word s' d u = word s d u := fun hu => hword _ (page_lt hu)
  refine ⟨h.small, fun v hv => ?_, ?_, fun a ha => ?_⟩
  · rw [hw hv]; exact h.pages v hv
  · rw [hw (by omega)]; exact h.guard
  · rw [hb a (ha.trans_le (Nat.mul_le_mul_right _ (by omega)))]; exact h.bytes a ha

theorem Laid.congr (h : Laid s d g argv esp sp ps) (hword : word s' d (g + 1) = word s d (g + 1))
    (hb : ∀ a < (g + 2) * PGSIZE, ubyte s' d a = ubyte s d a) :
    Laid s' d g argv esp sp ps := by
  have hle := h.strings.le
  have hvec := h.vector
  refine ⟨h.strings.congr fun a _ ha => hb a ha, h.align, h.inside, h.vector, fun j hj => ?_, ?_⟩
  · rw [hb _ (by omega)]; exact h.words j hj
  · rw [Writable, hword]; exact h.stack

theorem space_new {s1 : St} {lab1 : Nat → Label} (hg : Good L pool s lab) (hfree : lab d = .free)
    (hg1 : Good L pool s1 lab1) (hgrows : Grows d s (update lab d .dir) s1 lab1)
    (hw : ∀ u < 1024 * 1024, word s1 d u = kentry (kmap L) u) :
    Space L pool s lab d 0 (fun _ => 0) s1 lab1 := by
  have hvalid := hg.valid d ((hg.inside d).1 (by rw [hfree]; decide))
  have hrows : Rows UPAGES (kmap L) := kmap_rows (L.data_le.trans_lt (hvalid.1.trans_lt hvalid.2))
  refine ⟨⟨hg1, hgrows.keeps (update_self ..), fun u _ hu => hw u hu⟩, zero_le, fun v hv => ?_,
    fun v hv => absurd hv not_lt_zero, fun a ha => ?_, fun _ _ => rfl⟩
  · rw [hw v (page_lt hv), kentry_below hrows hv]
    exact iff_of_false not_present_zero not_lt_zero
  · rw [show pgs 0 = 0 from rfl, zero_mul] at ha; exact absurd ha not_lt_zero

/-- The new image takes the place of the old one, which is freed. -/
theorem commit_ends (hd : lab w.proc.pgdir = .dir) (hfree : lab d = .free)
    (h : Guarded L pool w.st lab d g (loaded file) s lab') (hl : ∃ sp ps, Laid s d g argv esp sp ps) :
    Ends E (fun ok w' => ok = true ∧ Released w w' ∧ ∃ lab'', Started L pool file argv w' g lab'')
      (commit L path d ((g + 2) * PGSIZE) entry esp (inode w false s)) := by
  have hne : d ≠ w.proc.pgdir := fun he => by
    rw [he, hd] at hfree; cases hfree
  have hold : lab' w.proc.pgdir = .dir := by
    have hup : update lab d .dir w.proc.pgdir = .dir := (update_of_ne hne.symm ..).trans hd
    rw [h.keeps.label _ (by rw [hup]; decide) hne.symm (by rw [hup]; simp [Label.base]), hup]
  have hother := freevm_other (E := E) h.good h.dir hold hne
  generalize hw1 : ({ w with proc := ⟨d, (g + 2) * PGSIZE, (lastElem path).take 15, ⟨entry, esp⟩⟩ } : World) = w1
  show Ends _ _ ((vm (freevm L w.proc.pgdir) >>= fun _ => pure true : X Bool)
    (inode { w with proc := ⟨d, (g + 2) * PGSIZE, (lastElem path).take 15, ⟨entry, esp⟩⟩ } false s))
  rw [hw1]
  refine (vm_ends hother).bind ?_
  rintro _ w2 ⟨s2, hw2, lab2, hg2, hd2, hword, hbyte⟩
  have hb : ∀ a < (g + 2) * PGSIZE, ubyte s2 d a = ubyte s d a := fun a ha => by
    have hpage : a / PGSIZE < g + 2 := Nat.div_lt_of_lt_mul (Nat.mul_comm _ _ ▸ ha)
    have hU := h.upages
    exact hbyte a (by omega) ((h.pages _ (by omega)).2 hpage)
  have hU := h.upages
  obtain ⟨sp, ps, hl⟩ := hl
  subst hw2 hw1
  refine ⟨rfl, ⟨rfl, rfl, rfl⟩, lab2, hg2, hd2, rfl, h.toImage.congr hword hb, sp, ps, hl.congr (hword _ ?_) hb⟩
  exact page_lt (by omega)

end

/-- What `exec` leaves: the inode given back, and the process as it was or started anew. -/
def Ended (L : Link) (pool : Nat → Prop) (lab : Nat → Label) (w : World) (file : List UInt8)
    (argv : List (List UInt8)) (ok : Bool) (w' : World) : Prop :=
  Released w w' ∧ (ok = false → Restored L pool lab w w') ∧ (ok = true → ∃ g lab', Started L pool file argv w' g lab')

theorem Ended.failed (ok : Bool) (w' : World) (h : ok = false ∧ Released w w' ∧ Restored L pool lab w w') :
    Ended L pool lab w file argv ok w' :=
  ⟨h.2.1, fun _ => h.2.2, fun hok => by rw [h.1] at hok; cases hok⟩

theorem finish_ends {sz : Nat} (hg : Good L pool w.st lab) (hd : lab w.proc.pgdir = .dir) (hfree : lab d = .free)
    (hlen : ∀ arg ∈ argv, arg.length + 1 < 2 ^ 32) (h : Space L pool w.st lab d sz (loaded file) s lab')
    {x : Except Panic (Bool × World)} (hx : finish L path argv d sz entry (inode w false s) = x) :
    Ends (fun e => e = .fault ∧ PGSIZE ≤ (argv.map List.length).sum) (Ended L pool lab w file argv) x := by
  have hbad : ∀ {s1 : St} {lab1 : Nat → Label}, Built L pool w.st lab d s1 lab1 →
      Ends (fun e => e = .fault ∧ PGSIZE ≤ (argv.map List.length).sum) (Ended L pool lab w file argv)
        (bad L (some d) false (inode w false s1)) := fun hb =>
    (bad_some hg hfree hb).post Ended.failed
  have hround := h.round
  have hsmall := hround.small
  have hadd : add32 (pgs sz * PGSIZE) (2 * PGSIZE) = (pgs sz + 2) * PGSIZE := by
    unfold add32 PGSIZE; unfold PGSIZE KERNBASE at hsmall; omega
  rw [← hx, finish, PGROUNDUP_eq h.small, hadd]
  refine ((vm_ends (hround.allocuvm ((pgs sz + 2) * PGSIZE))).err fun _ hf => hf.elim).bind
    fun r w1 ⟨s1, hw1, lab1, hb1, hs1⟩ => ?_
  subst hw1
  refine .ite (fun _ => hbad hb1) fun hr => ?_
  obtain ⟨-, hr1, hsp1⟩ := hs1 hr
  obtain ⟨rfl, -⟩ := hr1 (Nat.mul_le_mul_right _ (by omega))
  refine (vm_ends (setupStack_ends hsp1 hlen)).bind ?_
  rintro r w2 ⟨s2, hw2, hb2, hs2⟩
  subst hw2
  cases r with
  | none => exact hbad hb2
  | some esp =>
    obtain ⟨h2, hl⟩ := hs2 esp rfl
    refine (commit_ends hd hfree h2 hl).post fun ok w' ⟨hok, hrel, hst⟩ => ⟨hrel, fun h => ?_, fun _ => ⟨_, hst⟩⟩
    rw [hok] at h
    cases h

theorem length_lt_of_sum (h : (argv.map List.length).sum < PGSIZE) : ∀ arg ∈ argv, arg.length + 1 < 2 ^ 32 := by
  intro arg harg
  have hle := List.single_le_sum (fun _ _ => zero_le) _ (List.mem_map_of_mem (f := List.length) harg)
  unfold PGSIZE at h
  omega

theorem exec_ends (path : List UInt8) (hg : Good L pool w.st lab) (hd : lab w.proc.pgdir = .dir)
    (hfile : file.length < 2 ^ 32) (hlen : ∀ arg ∈ argv, arg.length + 1 < 2 ^ 32) :
    Ends (fun e => e = .fault ∧ PGSIZE ≤ (argv.map List.length).sum) (Ended L pool lab w file argv)
      (exec L (some file) path argv w) := by
  rw [exec]
  generalize hr : readi file 0 sizeofElfhdr = r
  have hbad0 := fun s (hgs : Good L pool s lab) hm =>
    (bad_none (L := L) (E := fun e => e = Panic.fault ∧ PGSIZE ≤ (argv.map List.length).sum)
    (w := w) hgs hm).post (@Ended.failed L pool w lab file argv)
  cases r with
  | none => exact hbad0 _ hg fun _ _ => rfl
  | some b =>
    have hh : elfhdr b = header file := by rw [header, hr]; rfl
    show Ends _ _ ((if b.length ≠ sizeofElfhdr then bad L none true else _ : X Bool) (inode w true w.st))
    refine .ite (fun _ => hbad0 _ hg fun _ _ => rfl) fun _ => .ite (fun _ => hbad0 _ hg fun _ _ => rfl) fun _ => ?_
    refine (vm_ends (setupkvm_ends hg)).bind ?_
    rintro r w1 ⟨s1, hw1, hs1⟩
    subst hw1
    rcases hs1 with ⟨rfl, hg1, hm1⟩ | ⟨d, lab1, rfl, hfree, hg1, hgrows, hword⟩
    · exact hbad0 _ hg1 hm1
    · have hsp := space_new hg hfree hg1 hgrows hword
      rw [hh]
      refine ((vm_ends (loadSegs_ends hfile (header file).phnum (header file).phoff 0 _ s1 lab1 hsp)).err
        fun _ hf => hf.elim).bind fun r w2 ⟨s2, hw2, lab2, hb2, hs2⟩ => ?_
      subst hw2
      cases r with
      | none => exact (bad_some hg hfree hb2).post Ended.failed
      | some sz =>
        show Ends _ _ ((iunlockput >>= fun _ => end_op >>= fun _ => _ : X Bool) (inode w true s2))
        rw [release_bind]
        generalize hx : finish L path argv d sz (header file).entry (inode w false s2) = x
        exact finish_ends hg hd hfree hlen (hs2 sz rfl) hx

/-! ## A run -/

/-- A file with the ELF header `hb` and one program header, `pb`. -/
structure OneHeader (file hb pb : List UInt8) : Prop where
  read : readi file 0 sizeofElfhdr = some hb
  full : hb.length = sizeofElfhdr
  magic : (elfhdr hb).magic = ELF_MAGIC
  num : (elfhdr hb).phnum = 1
  pread : readi file (elfhdr hb).phoff sizeofProghdr = some pb
  pfull : pb.length = sizeofProghdr
  seg : OneSegment file (proghdr pb)

section

variable {rest : List Nat} {hb pb : List UInt8} (hg : Good L pool w.st lab) (hfails : w.st.fails = [])
  (hfree : w.st.free = d :: rest) (hrest : NPDENTRIES + (pgs (proghdr pb).memsz + 2) ≤ rest.length)
  (hfile : file.length < 2 ^ 32) (hh : OneHeader file hb pb) (hmax : argv.length ≤ MAXARG)
  (hroom : room argv + 4 * (argv.length + 4) + 3 ≤ PGSIZE)

include hg hfails hfree hrest hfile hh hmax hroom

/-- A file with a good header and one segment is run, if there are pages enough and the arguments fit. -/
theorem exec_fits (path : List UInt8) :
    Ends (fun _ => True) (fun ok w' => ok = true ∧ w'.proc.sz = (pgs (proghdr pb).memsz + 2) * PGSIZE)
      (exec L (some file) path argv w) := by
  have hvalid : ∀ f ∈ w.st.free, L.stop ≤ f * PGSIZE ∧ f * PGSIZE < PHYSTOP := fun f hf =>
    hg.valid f ((hg.inside f).1 (by rw [(hg.free f).1 hf]; decide))
  rw [exec, hh.read]
  show Ends _ _ ((if hb.length ≠ sizeofElfhdr then bad L none true else _ : X Bool) (inode w true w.st))
  refine .ite (fun hno => (hno hh.full).elim) fun _ => .ite (fun hno => (hno hh.magic).elim) fun _ => ?_
  have hsetup := (setupkvm_ends (E := fun _ => True) hg).and (setupkvm_room (L := L) hfails hfree hvalid hg.nodup hrest)
  refine ((vm_ends hsetup).err fun _ _ => trivial).bind ?_
  rintro r w1 ⟨s1, hw1, hs1, hr1, hroom1, -⟩
  subst hw1 hr1
  obtain ⟨hf, -⟩ | ⟨d', lab1, hd', hfree1, hg1, hgrows, hword⟩ := hs1
  · cases hf
  obtain rfl := Option.some.inj hd'
  have hsp := space_new hg hfree1 hg1 hgrows hword
  rw [hh.num]
  have hsegs := (loadSegs_ends hfile 1 (elfhdr hb).phoff 0 _ s1 lab1 hsp).and
    (loadSegs_room hfile hsp hroom1 hh.pread hh.pfull hh.seg)
  refine ((vm_ends hsegs).err fun _ _ => trivial).bind ?_
  rintro r w2 ⟨s2, hw2, ⟨lab2, -, hs2⟩, hr2, hroom2⟩
  subst hw2 hr2
  have hround := (hs2 _ rfl).round
  have hsmall := hh.seg.small
  generalize (proghdr pb).memsz = m at *
  show Ends _ _ ((iunlockput >>= fun _ => end_op >>= fun _ => finish L path argv d m (elfhdr hb).entry : X Bool)
    (inode w true s2))
  have hpgs : pgs m * PGSIZE ≤ m + PGSIZE ∧ pgs (pgs m * PGSIZE) = pgs m ∧ pgs ((pgs m + 2) * PGSIZE) = pgs m + 2 := by
    unfold pgs PGSIZE; omega
  have hadd : add32 (pgs m * PGSIZE) (2 * PGSIZE) = (pgs m + 2) * PGSIZE := by
    unfold add32 PGSIZE; unfold PGSIZE KERNBASE at *; omega
  have hlt : (pgs m + 2) * PGSIZE < KERNBASE := by
    rw [add_mul]; omega
  rw [release_bind, finish, PGROUNDUP_eq (by omega), hadd]
  have hroom3 : Room s2 d (pgs ((pgs m + 2) * PGSIZE) - pgs (pgs m * PGSIZE) + 0) := by
    rwa [hpgs.2.1, hpgs.2.2, Nat.add_sub_cancel_left]
  have halloc := (hround.allocuvm ((pgs m + 2) * PGSIZE)).and
    (allocuvm_room (L := L) hroom3 (Nat.mul_le_mul_right _ (Nat.le_add_right _ 2)) hlt)
  refine ((vm_ends halloc).err fun _ _ => trivial).bind ?_
  rintro r w3 ⟨s3, hw3, ⟨lab3, _, hs3⟩, hr3, -⟩
  subst hw3 hr3
  refine .ite (fun h0 => absurd h0 (by unfold PGSIZE; omega)) fun hr => ?_
  obtain ⟨-, -, hsp3⟩ := hs3 hr
  refine (vm_ends (setupStack_fits hsp3 hmax hroom)).bind fun r w4 ⟨s4, hw4, hr4⟩ => ?_
  subst hw4
  cases r with
  | none => exact (hr4 rfl).elim
  | some esp =>
    have hfreed : Ends (fun _ => True) (fun _ (w' : World) => w'.proc.sz = (pgs m + 2) * PGSIZE)
        (vm (freevm L w.proc.pgdir) { inode w false s4 with
          proc := ⟨d, (pgs m + 2) * PGSIZE, (lastElem path).take 15, ⟨(elfhdr hb).entry, esp⟩⟩ }) :=
      Ends.of_true.map fun _ _ _ => rfl
    show Ends _ _ ((vm (freevm L w.proc.pgdir) >>= fun _ => pure true : X Bool) _)
    exact hfreed.bind fun _ _ hw => .ret ⟨rfl, hw⟩

theorem exec_runs (path : List UInt8) (hd : lab w.proc.pgdir = .dir) :
    ∃ w', exec L (some file) path argv w = .ok (true, w') ∧ w'.proc.sz = (pgs (proghdr pb).memsz + 2) * PGSIZE := by
  have hsum := sum_le_room argv
  have hlen : ∀ arg ∈ argv, arg.length + 1 < 2 ^ 32 := length_lt_of_sum (by omega)
  have hends := (exec_ends path hg hd hfile hlen).and
    (exec_fits hg hfails hfree hrest hfile hh hmax hroom path)
  obtain ⟨ok, w', he, -, rfl, hsz⟩ :=
    (hends.err fun e he => absurd he.1.2 (by omega) : Ends (fun _ => False) _ _).exists_ok
  exact ⟨w', he, hsz⟩

end

/-- A process with an empty directory, and many free pages. -/
def idle : World := ⟨⟨fun _ _ => 0, List.range' 0x201 2999, []⟩, ⟨0x200, 0, [], ⟨0, 0⟩⟩, false, 1, 0⟩

/-- An ELF header, a program header right after it, and the three bytes of its segment, which has five in memory. -/
def tiny : List UInt8 :=
  [0x7f, 0x45, 0x4c, 0x46] ++ List.replicate 24 0 ++ [52] ++ List.replicate 15 0 ++ [1] ++ List.replicate 7 0 ++
    [1, 0, 0, 0, 84] ++ List.replicate 11 0 ++ [3, 0, 0, 0, 5] ++ List.replicate 11 0 ++ [0xeb, 0xfe, 0x90]

theorem idle_good : ∃ lab, Good link (· ∈ Vm.pool) idle.st lab ∧ lab idle.proc.pgdir = .dir := by
  obtain ⟨lab, hg, -⟩ := Reach.inv_sys List.nodup_range' pool_valid
    (.init (⟨rfl, rfl⟩ : boot.st.free = Vm.pool ∧ boot.dirs = []))
  have hk : kalloc boot.st = .ok (some 0x200, idle.st) := by
    rw [kalloc, if_neg (by simp [boot]), show boot.st.free = Vm.pool from rfl, pool_eq]; rfl
  have hends := kalloc_ends (E := fun _ => False) hg
  rw [hk] at hends
  obtain ⟨-, hg1⟩ := hends.2.2 0x200 rfl
  exact ⟨_, hg1.newDir (update_self ..) fun k => getLE_zero fun _ _ _ => rfl, update_self ..⟩

theorem exec_tiny : ∃ w', exec link (some tiny) [] [[0x6c, 0x73]] idle = .ok (true, w') ∧ w'.proc.sz = 3 * PGSIZE := by
  obtain ⟨lab, hg, hd⟩ := idle_good
  have hh : OneHeader tiny (tiny.take 52) ((tiny.drop 52).take 32) :=
    ⟨rfl, rfl, rfl, rfl, rfl, rfl, rfl, rfl, by decide, by decide, by decide, by decide⟩
  have hfree : idle.st.free = 0x201 :: List.range' 0x202 2998 := List.range'_succ ..
  have hrest : NPDENTRIES + (pgs (proghdr ((tiny.drop 52).take 32)).memsz + 2) ≤ (List.range' 0x202 2998).length := by
    rw [List.length_range']; decide
  have hrun := exec_runs hg rfl hfree hrest (by decide) hh
    (show [[0x6c, 0x73]].length ≤ MAXARG by decide) (by decide) [] hd
  exact hrun.imp fun w' h => ⟨h.1, h.2.trans (by decide)⟩

/-- `exec` runs the file or leaves everything as it was, whatever the bytes of the file are and whichever calls of
`kalloc` fail. -/
theorem exec_all_or_nothing (hg : Good L pool w.st lab) (hd : lab w.proc.pgdir = .dir) (hfile : file.length < 2 ^ 32)
    (hargs : (argv.map List.length).sum < PGSIZE) :
    ∃ ok w', exec L (some file) path argv w = .ok (ok, w') ∧ Released w w' ∧
      if ok then (∀ a < w'.proc.sz, present (word w'.st w'.proc.pgdir (a / PGSIZE))) ∧
        ∀ a, a + 2 * PGSIZE < w'.proc.sz → ubyte w'.st w'.proc.pgdir a = loaded file a
      else Restored L pool lab w w' := by
  have hends := exec_ends path hg hd hfile (length_lt_of_sum hargs)
  obtain ⟨ok, w', he, hrel, hno, hyes⟩ :=
    (hends.err fun e he => absurd he.2 (not_le.2 hargs) : Ends (fun _ => False) _ _).exists_ok
  refine ⟨ok, w', he, hrel, ?_⟩
  cases ok with
  | false => exact hno rfl
  | true =>
    obtain ⟨g, lab', hst⟩ := hyes rfl
    have hU := hst.image.upages
    refine ⟨fun a ha => ?_, fun a ha => hst.image.bytes a ?_⟩
    · rw [hst.size] at ha
      have hpage : a / PGSIZE < g + 2 := Nat.div_lt_of_lt_mul (Nat.mul_comm _ _ ▸ ha)
      exact (hst.image.pages _ (by omega)).2 hpage
    · rw [hst.size, add_mul] at ha; exact Nat.lt_of_add_lt_add_right ha

/-- The file is run with its segment in the first page, followed by zeros, below the two pages of the stack. -/
theorem exec_all_or_nothing_tiny :
    ∃ w', exec link (some tiny) [] [[0x6c, 0x73]] idle = .ok (true, w') ∧ Released idle w' ∧
    w'.proc.sz = 3 * PGSIZE ∧ (∀ a < 3 * PGSIZE, present (word w'.st w'.proc.pgdir (a / PGSIZE))) ∧
    ubyte w'.st w'.proc.pgdir 0 = 0xeb ∧ ubyte w'.st w'.proc.pgdir 2 = 0x90 ∧
    ∀ a, 3 ≤ a → a < PGSIZE → ubyte w'.st w'.proc.pgdir a = 0 := by
  obtain ⟨lab, hg, hd⟩ := idle_good
  obtain ⟨w', he, hsz⟩ := exec_tiny
  obtain ⟨ok, w'', he', hrel, h⟩ :=
    @exec_all_or_nothing link _ idle lab tiny [] [[0x6c, 0x73]] hg hd (by decide) (by decide)
  rw [he] at he'
  obtain ⟨rfl, rfl⟩ := Prod.mk.inj (Except.ok.inj he')
  obtain ⟨hpages, hbytes⟩ := h
  rw [hsz] at hpages hbytes
  have himage : ∀ a < PGSIZE, ubyte w'.st w'.proc.pgdir a = paste (fun _ => 0) 0 3 (slice (ofList tiny) 84) a :=
    fun a ha => hbytes a (by unfold PGSIZE at *; omega)
  refine ⟨w', he, hrel, hsz, hpages, himage 0 (by decide), himage 2 (by decide), fun a h3 ha => ?_⟩
  rw [himage a ha, paste_out (.inr (by omega))]

/-! ## The arguments -/

/-- The vector at `esp` and the strings: where they are, and their lengths. -/
def regions (esp : Nat) (argv : List (List UInt8)) (ps : List Nat) : List (Nat × Nat) :=
  (esp, 4 * (argv.length + 4)) :: List.zipWith (fun p arg => (p, arg.length + 1)) ps argv

/-- What the new program finds on its stack. -/
structure Arguments (s : St) (p : Proc) (argv : List (List UInt8)) (ps : List Nat) : Prop where
  align : p.tf.esp % 4 = 0
  words : (List.range (argv.length + 4)).map (fun i => getLE (ubyte s p.pgdir) (p.tf.esp + 4 * i) 4) =
    [0xffffffff, argv.length, p.tf.esp + 12] ++ ps ++ [0]
  strings : List.Forall₂ (fun q arg => toList (ubyte s p.pgdir) q (arg.length + 1) = arg ++ [0]) ps argv
  apart : (regions p.tf.esp argv ps).Pairwise fun r r' => r.1 + r.2 ≤ r'.1 ∨ r'.1 + r'.2 ≤ r.1
  inside : ∀ r ∈ regions p.tf.esp argv ps, p.sz - PGSIZE ≤ r.1 ∧ r.1 + r.2 ≤ p.sz
  stack : Writable s p.pgdir ((p.sz - PGSIZE) / PGSIZE)
  guard : ¬Writable s p.pgdir ((p.sz - 2 * PGSIZE) / PGSIZE)

section

variable {hi lo : Nat}

theorem toList_string {b : Nat → UInt8} {p : Nat} {arg : List UInt8}
    (h : ∀ j < arg.length + 1, b (p + j) = ofList arg j) :
    toList b p (arg.length + 1) = arg ++ [0] := by
  refine List.ext_getElem (by rw [length_toList, List.length_append, List.length_singleton]) fun j h1 h2 => ?_
  rw [length_toList] at h1
  rw [getElem_toList, h j h1, List.getElem_append]
  split
  · next hj => exact ofList_eq hj
  · rw [ofList, List.getD_eq_getElem?_getD, List.getElem?_eq_none (by omega), List.getElem_singleton]
    rfl

theorem Strings.copies (h : Strings s d hi argv ps lo) :
    List.Forall₂ (fun q arg => toList (ubyte s d) q (arg.length + 1) = arg ++ [0]) ps argv := by
  induction h with
  | nil => exact .nil
  | cons _ hcopy _ ih => exact .cons (toList_string hcopy) ih

theorem Strings.within (h : Strings s d hi argv ps lo) :
    ∀ r ∈ List.zipWith (fun p arg => (p, arg.length + 1)) ps argv, lo ≤ r.1 ∧ r.1 + r.2 ≤ hi := by
  induction h with
  | nil => exact fun r hr => absurd hr List.not_mem_nil
  | cons hfit _ hrest ih =>
    intro r hr
    have hle := hrest.le
    rcases List.mem_cons.1 hr with rfl | hr
    · exact ⟨hle, hfit⟩
    · have := ih r hr; omega

theorem Strings.apart (h : Strings s d hi argv ps lo) :
    (List.zipWith (fun p (arg : List UInt8) => (p, arg.length + 1)) ps argv).Pairwise
      fun r r' => r.1 + r.2 ≤ r'.1 ∨ r'.1 + r'.2 ≤ r.1 := by
  induction h with
  | nil => exact .nil
  | cons _ _ hrest ih => exact .cons (fun r hr => .inr (hrest.within r hr).2) ih

theorem getLE_wordBytes (ws : List Nat) (i : Nat) : getLE (wordBytes ws) (4 * i) 4 = ws.getD i 0 % 2 ^ 32 := by
  rw [← add_zero (4 * i), ← getLE_slice, show (2 : Nat) ^ 32 = 256 ^ 4 by decide, ← getLE_bytesLE]
  refine getLE_congr fun a _ ha => ?_
  rw [slice, wordBytes, show (4 * i + a) / 4 = i by omega, show (4 * i + a) % 4 = a by omega]

theorem Laid.arguments {p : Proc} (h : Laid s d g argv esp sp ps) (hg : ¬userBit (word s d g))
    (hsmall : (g + 2) * PGSIZE ≤ KERNBASE) (hd : p.pgdir = d) (hsz : p.sz = (g + 2) * PGSIZE) (hesp : p.tf.esp = esp) :
    Arguments s p argv ps := by
  obtain ⟨hstr, hal, hin, hvec, hwords, hstack⟩ := h
  subst hd hesp
  have hlen := hstr.length_eq
  have hle := hstr.le
  have hsp : sp < 2 ^ 32 := hle.trans_lt (hsmall.trans_lt (by decide))
  have hstk : (g + 2) * PGSIZE - PGSIZE = (g + 1) * PGSIZE := by rw [Nat.succ_mul, Nat.add_sub_cancel]
  have hthird : sub32 sp ((ps.length + 1) * 4) = p.tf.esp + 12 := by
    unfold sub32; omega
  have hsmall32 : ∀ x ∈ ustack sp ps, x < 2 ^ 32 := by
    intro x hx
    rw [ustack, hthird] at hx
    simp only [List.mem_append, List.mem_cons, List.not_mem_nil, or_false] at hx
    rcases hx with ((rfl | rfl | rfl) | hx) | rfl
    · decide
    · omega
    · omega
    · have := hstr.mem_bounds x hx
      have : (g + 2) * PGSIZE < 2 ^ 32 := hsmall.trans_lt (by decide)
      omega
    · decide
  refine ⟨hal, ?_, hstr.copies, ?_, fun r hr => ?_, ?_, ?_⟩
  · have hu : [0xffffffff, argv.length, p.tf.esp + 12] ++ ps ++ [0] = ustack sp ps := by rw [ustack, hthird, hlen]
    have hul : (ustack sp ps).length = argv.length + 4 := by
      rw [ustack, List.length_append, List.length_append, hlen]
      simp only [List.length_cons, List.length_nil]
      omega
    rw [hu]
    refine List.ext_getElem (by rw [List.length_map, List.length_range, hul]) fun i h1 h2 => ?_
    rw [List.getElem_map, List.getElem_range]
    have hget : getLE (ubyte s p.pgdir) (p.tf.esp + 4 * i) 4 = getLE (wordBytes (ustack sp ps)) (4 * i) 4 := by
      rw [← getLE_slice]; exact getLE_congr fun a _ ha => hwords a (by omega)
    rw [hget, getLE_wordBytes, List.getD_eq_getElem?_getD, List.getElem?_eq_getElem h2, Option.getD_some]
    exact Nat.mod_eq_of_lt (hsmall32 _ (List.getElem_mem h2))
  · refine .cons (fun r hr => .inl ?_) hstr.apart
    rw [← hlen, hvec]
    exact (hstr.within r hr).1
  · rw [hsz, hstk]
    rcases List.mem_cons.1 hr with rfl | hr
    · show (g + 1) * PGSIZE ≤ p.tf.esp ∧ p.tf.esp + 4 * (argv.length + 4) ≤ (g + 2) * PGSIZE
      rw [← hlen, hvec]
      exact ⟨hin, hle⟩
    · have := hstr.within r hr; omega
  · rw [hsz, hstk, Nat.mul_div_cancel _ (by decide)]; exact hstack
  · rw [hsz, add_mul, Nat.add_sub_cancel, Nat.mul_div_cancel _ (by decide)]
    exact fun hw => hg hw.2

end

/-- When `exec` returns 0, the arguments lie in the page of the stack, in the form `main` expects them. -/
theorem exec_arguments {L : Link} {pool : Nat → Prop} {w w' : World} {lab : Nat → Label} {file path : List UInt8}
    {argv : List (List UInt8)} (hg : Good L pool w.st lab) (hd : lab w.proc.pgdir = .dir)
    (hfile : file.length < 2 ^ 32) (hlen : ∀ arg ∈ argv, arg.length + 1 < 2 ^ 32)
    (h : exec L (some file) path argv w = .ok (true, w')) :
    ∃ ps, Arguments w'.st w'.proc argv ps := by
  have hends := exec_ends path hg hd hfile hlen
  rw [h] at hends
  obtain ⟨g, lab', hst⟩ := hends.2.2 rfl
  obtain ⟨sp, ps, hl⟩ := hst.laid
  exact ⟨ps, hl.arguments hst.image.guard hst.image.small rfl hst.size rfl⟩

theorem exec_arguments_tiny : ∃ w' ps, exec link (some tiny) [] [[0x6c, 0x73]] idle = .ok (true, w') ∧
    Arguments w'.st w'.proc [[0x6c, 0x73]] ps := by
  obtain ⟨lab, hg, hd⟩ := idle_good
  obtain ⟨w', he, -⟩ := exec_tiny
  obtain ⟨ps, h⟩ := exec_arguments hg hd (by decide) (by decide) he
  exact ⟨w', ps, he, h⟩

end Xv6.Exec
