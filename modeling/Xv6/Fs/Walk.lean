/-
`namex` comes to its end, when nobody else has a lock, the names of the tree are those of inodes, and the cache has room
for two more. It holds one lock at a time and at most two references, and every exit gives back what it does not
return; so between the calls the reference counts differ by the inode returned.
-/
import Xv6.Fs.Failed
import Xv6.Fs.Namex

namespace Xv6.Fs

open Base Logic

variable {N : Nat} {s s0 : State N} {i : Inum} {ino : Inum → Inode} {L M : Multiset Inum} {t : Fin N}
  {put parent : Bool}

/-! ## Runs that come to their end -/

/-- The programs of process `t` that come to their end. -/
abbrev runs (t : Fin N) : Logic Op Op.Ret (State N) := total ((kernel N).answers t)

/-- `used` counts the entries of the cache that are in use. -/
def Counted (s : State N) : Prop := ∃ S : Finset Inum, (∀ i, i ∈ S ↔ 0 < (s.cache i).ref) ∧ s.used = S.card

/-- Process `t` has the locks `M` and nobody else has one, and the cache counts its entries. -/
structure Steady (t : Fin N) (M : Multiset Inum) (s : State N) : Prop where
  locks : ∀ i, (s.cache i).lock = if i ∈ M then some t else none
  counted : Counted s

variable {s' : State N}

theorem Counted.congr (h : Counted s) (href : ∀ i, (s'.cache i).ref = (s.cache i).ref) (hu : s'.used = s.used) :
    Counted s' := by
  obtain ⟨S, hS, hc⟩ := h
  exact ⟨S, fun i => by rw [href i]; exact hS i, hu.trans hc⟩

theorem Counted.addRef (h : Counted s) (href : (s'.cache i).ref = (s.cache i).ref + 1)
    (hne : ∀ j ≠ i, (s'.cache j).ref = (s.cache j).ref)
    (hu : s'.used = if 0 < (s.cache i).ref then s.used else s.used + 1) : Counted s' := by
  obtain ⟨S, hS, hc⟩ := h
  refine ⟨insert i S, fun j => ?_, ?_⟩
  · by_cases hji : j = i
    · rw [hji, href]; exact iff_of_true (Finset.mem_insert_self i S) (Nat.succ_pos _)
    · rw [Finset.mem_insert, hne j hji, hS j]; exact or_iff_right hji
  · rw [hu, hc]
    by_cases hi : 0 < (s.cache i).ref
    · rw [if_pos hi, Finset.insert_eq_of_mem ((hS i).2 hi)]
    · rw [if_neg hi, Finset.card_insert_of_notMem fun hm => hi ((hS i).1 hm)]

theorem Counted.putRef (h : Counted s) (hpos : 0 < (s.cache i).ref) (href : (s'.cache i).ref = (s.cache i).ref - 1)
    (hne : ∀ j ≠ i, (s'.cache j).ref = (s.cache j).ref)
    (hu : s'.used = if (s.cache i).ref = 1 then s.used - 1 else s.used) : Counted s' := by
  obtain ⟨S, hS, hc⟩ := h
  by_cases hone : (s.cache i).ref = 1
  · refine ⟨S.erase i, fun j => ?_, ?_⟩
    · by_cases hji : j = i
      · rw [hji, href, hone]; exact iff_of_false (Finset.notMem_erase i S) (lt_irrefl 0)
      · rw [Finset.mem_erase, hne j hji, hS j]; exact and_iff_right hji
    · rw [hu, if_pos hone, hc, Finset.card_erase_of_mem ((hS i).2 hpos)]
  · refine ⟨S, fun j => ?_, by rw [hu, if_neg hone, hc]⟩
    by_cases hji : j = i
    · rw [hji, href, hS i]; omega
    · rw [hne j hji, hS j]

theorem Counted.used_le (h0 : Counted s0) (hc : Counted s) (h : Hold s0 ino L M s) :
    s.used ≤ s0.used + (L + M).card := by
  obtain ⟨S0, hS0, hc0⟩ := h0
  obtain ⟨S, hS, hc⟩ := hc
  have hsub : S ⊆ S0 ∪ (L + M).toFinset := fun i hi => by
    have hr := h.ref i
    have hpos := (hS i).1 hi
    rw [← Multiset.count_add] at hr
    rw [Finset.mem_union, hS0 i, Multiset.mem_toFinset, ← Multiset.count_pos]
    omega
  calc s.used = S.card := hc
    _ ≤ (S0 ∪ (L + M).toFinset).card := Finset.card_le_card hsub
    _ ≤ S0.card + (L + M).toFinset.card := Finset.card_union_le _ _
    _ ≤ s0.used + (L + M).card := by rw [hc0]; exact Nat.add_le_add_left (Multiset.toFinset_card_le _) _

section

variable {d : Inum} {name : Name}

theorem op_runs {o : Op} {Q : o.Ret → State N → Prop} {r : o.Ret} (hexec : ∀ x, exec t s x o = some (r, s'))
    (hQ : Q r s') : (runs t).wpProg Q (op o) s := by
  refine ⟨⟨r, s', 0, hexec 0⟩, ?_⟩
  rintro r1 s1 ⟨x, he⟩
  cases (hexec x).symm.trans he
  exact hQ

theorem acquire_runs (h : Steady t M s) (hi : i ∉ M) (hr : put = true ∨ 0 < (s.cache i).ref) :
    (runs t).wpProg (fun _ s' => Steady t (i ::ₘ M) s' ∧ Calm s s') (op (.acquire i put)) s := by
  have hfree : (s.cache i).lock = none := by rw [h.locks i, if_neg hi]
  refine op_runs (fun _ => if_pos ⟨hr, hfree⟩)
    ⟨⟨fun j => ?_, h.counted.congr (modEntry_apply Entry.ref rfl) rfl⟩, Calm.lock ..⟩
  by_cases hji : j = i
  · rw [hji, modEntry_self, if_pos (Multiset.mem_cons_self ..)]
  · rw [modEntry_of_ne hji, h.locks j]; simp only [Multiset.mem_cons, hji, false_or]

theorem release_runs (h : Steady t (i ::ₘ M) s) (hi : i ∉ M) (hr : put = true ∨ 0 < (s.cache i).ref) :
    (runs t).wpProg (fun _ s' => Steady t M s' ∧ Calm s s') (op (.release i put)) s := by
  have hheld : (s.cache i).lock = some t := by rw [h.locks i, if_pos (Multiset.mem_cons_self ..)]
  refine op_runs (fun _ => if_pos ⟨hr, hheld⟩)
    ⟨⟨fun j => ?_, h.counted.congr (modEntry_apply Entry.ref rfl) rfl⟩, Calm.lock ..⟩
  by_cases hji : j = i
  · rw [hji, modEntry_self, if_neg hi]
  · rw [modEntry_of_ne hji, h.locks j]; simp only [Multiset.mem_cons, hji, false_or]

theorem ilock_runs (h : Steady t M s) (hi : i ∉ M) (hr : 0 < (s.cache i).ref) (hty : (s.ino i).type ≠ .free) :
    (runs t).wpProg (fun _ s' => Steady t (i ::ₘ M) s') (ilock i) s := by
  refine wp_bind.2 (wpProg_mono (fun _ s1 hs1 => ?_) (acquire_runs h hi (.inr hr)))
  obtain ⟨h1, hc⟩ := hs1
  rw [← hc.ino] at hty
  by_cases hv : (s1.cache i).valid = true
  · exact op_runs (fun _ => if_pos hv) h1
  · refine op_runs (fun _ => (if_neg hv).trans (if_neg hty)) ?_
    refine ⟨fun j => ?_, h1.counted.congr (modEntry_apply Entry.ref rfl) rfl⟩
    rw [modEntry_apply Entry.lock rfl]; exact h1.locks j

theorem iunlock_runs (h : Steady t (i ::ₘ M) s) (hi : i ∉ M) (hr : 0 < (s.cache i).ref) :
    (runs t).wpProg (fun _ s' => Steady t M s' ∧ Calm s s') (iunlock i) s := release_runs h hi (.inr hr)

theorem iput_runs (h : Steady t M s) (hi : i ∉ M) (hr : 0 < (s.cache i).ref)
    (hkeep : ¬ ((s.cache i).valid = true ∧ (s.ino i).nlink = 0 ∧ (s.cache i).ref = 1)) :
    (runs t).wpProg (fun _ s' => Steady t M s') (iput i) s := by
  refine wp_bind.2 (wpProg_mono (fun _ s1 hs1 => ?_) (acquire_runs h hi (.inl rfl)))
  obtain ⟨h1, hc1⟩ := hs1
  rw [← hc1.valid i, ← hc1.ref i, ← hc1.ino] at hkeep
  refine wp_bind.2 (op_runs (fun _ => if_neg hkeep) ?_)
  refine wp_bind.2 (wpProg_mono (fun _ s3 hs3 => ?_) (release_runs h1 hi (.inl rfl)))
  obtain ⟨h3, hc3⟩ := hs3
  have hpos : 0 < (s3.cache i).ref := by rwa [hc3.ref i, hc1.ref i]
  refine op_runs (fun _ => rfl) ⟨fun j => ?_, h3.counted.putRef hpos ?_ (fun j hj => ?_) rfl⟩
  · rw [← h3.locks j]
    exact modEntry_apply (s := s3) (i := i) (f := fun e => { e with ref := e.ref - 1 }) Entry.lock rfl j
  · show ((s3.modEntry i fun e => { e with ref := e.ref - 1 }).cache i).ref = _
    rw [modEntry_self]
  · show ((s3.modEntry i fun e => { e with ref := e.ref - 1 }).cache j).ref = _
    rw [modEntry_of_ne hj]

theorem iunlockput_runs (h : Steady t (i ::ₘ M) s) (hi : i ∉ M) (hr : 0 < (s.cache i).ref)
    (hkeep : ¬ ((s.cache i).valid = true ∧ (s.ino i).nlink = 0 ∧ (s.cache i).ref = 1)) :
    (runs t).wpProg (fun _ s' => Steady t M s') (iunlockput i) s := by
  refine wp_bind.2 (wpProg_mono (fun _ s1 hs1 => ?_) (iunlock_runs h hi hr))
  obtain ⟨h1, hc⟩ := hs1
  exact iput_runs h1 hi (by rwa [hc.ref i]) (by rwa [hc.valid i, hc.ino, hc.ref i])

theorem iget_runs (h : Steady t M s) (hroom : s.used < NINODE) :
    (runs t).wpProg (fun _ s' => Steady t M s') (op (.iget i)) s := by
  by_cases hr : 0 < (s.cache i).ref
  · refine op_runs (fun _ => congrArg (Option.map _) (if_pos hr)) ?_
    refine ⟨fun j => ?_, h.counted.addRef (i := i) ?_ (fun j hj => ?_) (if_pos hr).symm⟩
    · rw [modEntry_apply Entry.lock rfl]; exact h.locks j
    · rw [modEntry_self]
    · rw [modEntry_of_ne hj]
  · refine op_runs (fun _ => congrArg (Option.map _) ((if_neg hr).trans (if_pos hroom))) ?_
    refine ⟨fun j => ?_, h.counted.addRef (i := i) ?_ (fun j hj => ?_) (if_neg hr).symm⟩
    · rw [← h.locks j]
      exact modEntry_apply (s := s) (i := i) (f := fun e => { e with ref := 1, valid := false }) Entry.lock rfl j
    · show ((s.modEntry i fun e => { e with ref := 1, valid := false }).cache i).ref = _
      rw [modEntry_self, Nat.eq_zero_of_not_pos hr]
    · show ((s.modEntry i fun e => { e with ref := 1, valid := false }).cache j).ref = _
      rw [modEntry_of_ne hj]

theorem dirlookup_runs (h : Steady t M s) (hd : (s.ino d).type = .dir) (hroom : s.used < NINODE) :
    (runs t).wpProg (fun _ s' => Steady t M s') (dirlookup d name) s := by
  refine wp_bind.2 (op_runs (fun _ => if_pos hd) ?_)
  cases findEnt name (s.ino d).ents 0 with
  | none => exact h
  | some p => exact wp_bind.2 (wpProg_mono (fun _ _ h' => h') (iget_runs h hroom))

end

/-! ## The walk -/

/-- Every answer is one that the logic of a process on its own goes on with. -/
theorem both {α : Type} {p : Fs.M α} {Q Q' K : α → State N → Prop} (h : (runs t).wpProg Q p s)
    (h' : (solo t fun _ _ => True).wpProg Q' p s) (hK : ∀ a s', Q a s' → Q' a s' → K a s') : (runs t).wpProg K p s :=
  wpProg_mono (fun a s' hq => hK a s' hq.1 hq.2) (total_and (fun _ _ _ _ hs => ⟨trivial, hs⟩) h h')

/-- The inodes that names lead to from the root or from `c`. -/
inductive Leads (ino : Inum → Inode) (c : Inum) : Inum → Prop
  | root : Leads ino c ROOTINO
  | cwd : Leads ino c c
  | entry {d j : Inum} {name : Name} {off : Nat} : Leads ino c d → (ino d).type = .dir →
    findEnt name (ino d).ents 0 = some (off, j) → Leads ino c j

section

variable {c : Inum}

/-- The reference that the walk holds is not the last one of an inode without a name. -/
theorem Hold.keep (h : Hold s0 ino (i ::ₘ L) M s) (hsafe : Safe s0 ino (L + M) i) :
    0 < (s.cache i).ref ∧ ¬ ((s.cache i).valid = true ∧ (s.ino i).nlink = 0 ∧ (s.cache i).ref = 1) := by
  have hr := h.ref i
  rw [Multiset.count_cons_self] at hr
  refine ⟨by omega, fun hc => ?_⟩
  obtain ⟨hv, hn, h1⟩ := hc
  rw [h.eq] at hn
  refine hsafe (h.live i hv) ⟨hn, by omega, fun hm => ?_⟩
  have := Multiset.count_pos.2 hm
  rw [Multiset.count_add] at this
  omega

theorem Leads.known (h : Leads ino c i) : Known ino c i := by
  cases h with
  | root => exact .inl rfl
  | cwd => exact .inr (.inl rfl)
  | entry _ hd hf => exact known_of_findEnt hd hf

/-- The walk goes from one inode to the next with one lock at a time. -/
theorem namexLoop_runs (hsafe : ∀ i, Known ino c i → Safe s0 ino 0 i)
    (hnamed : ∀ i, Leads ino c i → (ino i).type ≠ .free) (h0 : Counted s0) (hroom : s0.used + 2 ≤ NINODE) :
    ∀ (names : List Name) {ip : Inum} {s : State N}, Leads ino c ip → Hold s0 ino (ip ::ₘ 0) 0 s → Steady t 0 s →
      (runs t).wpProg (fun _ s' => Steady t 0 s') (namexLoop parent ip names) s
  | [], ip, s, hip, h, hs => by
    unfold namexLoop
    obtain ⟨hr, hkeep⟩ := h.keep (hsafe ip hip.known)
    cases parent with
    | false => exact hs
    | true => exact wp_bind.2 (iput_runs hs (Multiset.notMem_zero ip) hr hkeep)
  | name :: rest, ip, s, hip, h, hs => by
    have hnot := Multiset.notMem_zero ip
    have hne := hnamed ip hip
    rw [← h.eq] at hne
    unfold namexLoop
    have hlock : (solo t fun _ _ => True).wpProg (fun _ s' => Hold s0 ino 0 (ip ::ₘ 0) s') (ilock ip) s :=
      ilock_hold h fun s1 _ h1 => h1
    refine wp_bind.2 (both (ilock_runs hs hnot (h.keep (hsafe ip hip.known)).1 hne) hlock fun _ s1 hs1 h1 => ?_)
    -- whatever it finds, the directory is unlocked and put
    have hput : ∀ {L : Multiset Inum} {s2 : State N}, Hold s0 ino L (ip ::ₘ 0) s2 → Steady t (ip ::ₘ 0) s2 →
        (runs t).wpProg (fun _ s' => Steady t 0 s' ∧ Hold s0 ino L 0 s') (iunlockput ip) s2 := by
      intro L s2 h2 hs2
      have hsafe2 : Safe s0 ino (L + 0) ip := (hsafe ip hip.known).mono (Multiset.zero_le _)
      have hswap : Hold s0 ino (ip ::ₘ L) 0 s2 := by
        refine ⟨h2.eq, fun j => ?_, h2.live, h2.kept, fun j hj => absurd hj (Multiset.notMem_zero j),
          h2.ofile, h2.cwd, h2.ninodes⟩
        rw [h2.ref j, Multiset.count_cons, Multiset.count_cons]
        omega
      obtain ⟨hr, hkeep⟩ := hswap.keep hsafe2
      have hgive : (solo t fun _ _ => True).wpProg (fun _ s' => Hold s0 ino L 0 s') (iunlockput ip) s2 :=
        iunlockput_safe h2 hsafe2 fun s' h' => h'
      exact both (iunlockput_runs hs2 hnot hr hkeep) hgive fun _ s' a b => ⟨a, b⟩
    have hused := h0.used_le hs1.counted h1
    rw [zero_add, Multiset.card_cons, Multiset.card_zero] at hused
    refine wp_bind.2 (op_runs (fun _ => rfl) ?_)
    rw [h1.eq]
    by_cases hd : (ino ip).type = .dir
    · rw [if_neg (not_not.2 hd)]
      by_cases hp : parent = true ∧ rest = []
      · rw [if_pos hp]
        have hr : 0 < (s1.cache ip).ref := by
          rw [h1.ref ip, Multiset.count_cons_self]; omega
        exact wp_bind.2 (wpProg_mono (fun _ s2 h2 => h2.1) (iunlock_runs hs1 hnot hr))
      · rw [if_neg hp]
        have hlook : (solo t fun _ _ => True).wpProg (fun r s' => (r = none → Hold s0 ino 0 (ip ::ₘ 0) s') ∧
            ∀ q, r = some q → Leads ino c q.2 ∧ Hold s0 ino (q.2 ::ₘ 0) (ip ::ₘ 0) s') (dirlookup ip name) s1 := by
          refine dirlookup_hold h1 (fun _ _ => ⟨fun _ => h1, fun q hq => by cases hq⟩) fun off next s2 hd' hf h2 =>
            ⟨fun hq => (by cases hq), ?_⟩
          rintro q hq
          cases hq
          exact ⟨.entry hip hd' hf, h2⟩
        have hdir : (s1.ino ip).type = .dir := by rw [h1.eq]; exact hd
        refine wp_bind.2 (both (dirlookup_runs hs1 hdir (by omega)) hlook fun r s2 hs2 h2 => ?_)
        cases r with
        | none => exact wp_bind.2 (wpProg_mono (fun _ s3 h3 => h3.1) (hput (h2.1 rfl) hs2))
        | some q =>
          obtain ⟨hq, h2⟩ := h2.2 q rfl
          refine wp_bind.2 (wpProg_mono (fun _ s3 h3 => ?_) (hput h2 hs2))
          exact namexLoop_runs hsafe hnamed h0 hroom rest hq h3.2 h3.1
    · rw [if_pos hd]; exact wp_bind.2 (wpProg_mono (fun _ s2 h2 => h2.1) (hput h1 hs1))

end

/-! ## Path names -/

/-- What a walk of process `t` needs to come to its end: no lock is held, the names of the tree are those of inodes, its
current directory is in the cache, and the cache has room for two inodes more. -/
structure Ready (s : State N) (t : Fin N) : Prop extends Steady t 0 s where
  named : ∀ i, Leads s.ino (s.cwd t) i → (s.ino i).type ≠ .free
  cwd : 0 < (s.cache (s.cwd t)).ref
  room : s.used + 2 ≤ NINODE

section

variable {path : List UInt8} {name : Nat → UInt8}

theorem namex_runs (hs : Sound s t) (h : Ready s t) :
    (runs t).wpProg (fun _ s' => Steady t 0 s') (namex parent path) s := by
  have hstart := Hold.start hs.live
  have hloop : ∀ {ip : Inum} {s1 : State N}, Leads s.ino (s.cwd t) ip → Hold s s.ino (ip ::ₘ 0) 0 s1 → Steady t 0 s1 →
      (runs t).wpProg (fun _ s' => Steady t 0 s') (namexLoop parent ip (elems path)) s1 := fun hip h1 hs1 =>
    namexLoop_runs hs.safe h.named h.counted h.room _ hip h1 hs1
  have hroom := h.room
  refine wp_bind.2 ?_
  unfold start
  by_cases hp : path.head? = some slash
  · rw [if_pos hp]
    have hget : (solo t fun _ _ => True).wpProg (fun _ s' => Hold s s.ino (ROOTINO ::ₘ 0) 0 s')
        (op (.iget ROOTINO)) s :=
      iget_hold hstart fun s' h' => h'
    exact wp_bind.2 (both (iget_runs h.toSteady (by omega)) hget fun _ s1 hs1 h1 => hloop .root h1 hs1)
  · rw [if_neg hp]
    refine op_runs (fun _ => rfl) ?_
    have h1 : Hold s s.ino (s.cwd t ::ₘ 0) 0 (s.modEntry (s.cwd t) fun e => { e with ref := e.ref + 1 }) :=
      hstart.addRef rfl (fun h => h) fun _ => rfl
    refine hloop .cwd h1 ⟨fun j => by rw [modEntry_apply Entry.lock rfl]; exact h.locks j, ?_⟩
    refine h.counted.addRef (i := s.cwd t) (by rw [modEntry_self])
      (fun j hj => by rw [modEntry_of_ne hj]) (if_pos h.cwd).symm

/-- What a run of `namex` that comes to its end has done. -/
theorem namexBuf_exact (hs : Sound s t) (h0 : 0 ∉ path) {r : Option (Inum × (Nat → UInt8))} {s' : State N}
    (he : (namexBuf parent path name).Evals ((kernel N).answers t) s r s') :
    r.map (result parent) = resolve s.ino parent (startOf s t path) (elems path) ∧ s'.ino = s.ino ∧
      ∀ i, (s'.cache i).ref = (s.cache i).ref + if r.map Prod.fst = some i then 1 else 0 := by
  have hwalk : (solo t fun _ _ => True).wpProg (fun q s' => q = resolve s.ino parent (startOf s t path) (elems path) ∧
      s'.ino = s.ino ∧ ∀ i, (s'.cache i).ref = (s.cache i).ref + if q.map Prod.fst = some i then 1 else 0)
      (namex parent path) s := by
    refine namex_hold hs.safe (Hold.start hs.live) (fun s' hr h' => ⟨hr.symm, h'.eq, fun i => ?_⟩) fun v s' hr h' =>
      ⟨hr.symm, h'.eq, fun i => ?_⟩
    · rw [h'.ref i]; rfl
    · rw [h'.ref i, Multiset.count_cons, Multiset.count_zero]
      simp only [Option.map_some, Option.some.injEq, eq_comm, zero_add, add_zero]
  have hbuf := wp_seq.1 (wp_namexBuf h0 name hwalk) r s' (he.mono fun _ _ _ _ ha => ⟨trivial, ha⟩)
  rw [Option.map_map] at hbuf
  exact hbuf

/-- `namex` is the fold of lookups over the parts of the path, and one reference more to what it returns. -/
theorem namex_fold_of_lookups (hs : Sound s t) (path : List UInt8) (name : Nat → UInt8) (h0 : 0 ∉ path) :
    (∀ r s', (namexBuf false path name).Evals ((kernel N).answers t) s r s' →
      r.map Prod.fst = walk s.ino (startOf s t path) ((components path).map (·.take DIRSIZ)) ∧ s'.ino = s.ino ∧
        ∀ i, (s'.cache i).ref = (s.cache i).ref + if r.map Prod.fst = some i then 1 else 0) ∧
    (∀ r s', (namexBuf true path name).Evals ((kernel N).answers t) s r s' →
      (r.map fun p => (p.1, cname p.2)) = walkParent s.ino (startOf s t path) ((components path).map (·.take DIRSIZ)) ∧
        s'.ino = s.ino ∧ ∀ i, (s'.cache i).ref = (s.cache i).ref + if r.map Prod.fst = some i then 1 else 0) ∧
    (Ready s t → ∀ parent, ∃ r s', (namexBuf parent path name).Evals ((kernel N).answers t) s r s' ∧
      ∀ i, (s'.cache i).lock = none) := by
  rw [← elems_eq_components _ path le_rfl]
  refine ⟨fun r s' he => ?_, fun r s' he => ?_, fun h parent => ?_⟩
  · obtain ⟨hr, hrest⟩ := namexBuf_exact hs h0 he
    rw [resolve_eq_walk] at hr
    have hfst := congrArg (Option.map Prod.fst) hr
    rw [Option.map_map, Option.map_map] at hfst
    refine ⟨hfst.trans ?_, hrest⟩
    exact Option.map_id' ..
  · obtain ⟨hr, hrest⟩ := namexBuf_exact hs h0 he
    rw [resolve_eq_walkParent] at hr
    exact ⟨hr, hrest⟩
  · obtain ⟨r, s', he, hst⟩ := total_evals (wp_namexBuf h0 name (namex_runs hs h))
    exact ⟨r, s', he, fun i => (hst.locks i).trans (if_neg (Multiset.notMem_zero i))⟩

end

theorem ready_oneFile : Ready (oneFile 1 false).mem 0 := by
  have hleads : ∀ i, Leads (oneFile 1 false).mem.ino ROOTINO i → i = 1 ∨ i = 2 := fun i h => by
    induction h with
    | root => exact .inl rfl
    | cwd => exact .inl rfl
    | @entry d j name off _ hd hf ih =>
      rcases ih with rfl | rfl
      · obtain ⟨e, he, rfl, -⟩ := findEnt_mem hf
        simp only [oneFile, if_true, List.mem_cons, List.not_mem_nil, or_false] at he
        rcases he with rfl | rfl | rfl
        · exact .inl rfl
        · exact .inl rfl
        · exact .inr rfl
      · cases hd
  refine ⟨⟨fun i => ?_, {1}, fun i => ?_, rfl⟩, fun i hi => ?_, by decide, by decide⟩
  · rw [if_neg (Multiset.notMem_zero i)]; exact (oneFile_atRest 1 false).lock i
  · rw [Finset.mem_singleton]
    by_cases h1 : i = 1
    · rw [h1]; exact iff_of_true rfl (by decide)
    · refine iff_of_false h1 ?_
      simp only [oneFile, if_neg h1]
      rw [if_neg fun h => Bool.false_ne_true h.2]
      decide
  · rcases hleads i hi with rfl | rfl
    · decide
    · decide

/-- A file of the root directory. -/
theorem namex_fold_of_lookups_oneFile :
    ∃ r s', (namexBuf false [47, 102] fun _ => 0).Evals ((kernel 1).answers 0) (oneFile 1 false).mem r s' ∧
    r.map Prod.fst = some 2 ∧ (s'.cache 1).ref = 1 ∧ (s'.cache 2).ref = 1 := by
  obtain ⟨hfold, -, hends⟩ := namex_fold_of_lookups sound_oneFile [47, 102] (fun _ => 0) (by decide)
  obtain ⟨r, s', he, -⟩ := hends ready_oneFile false
  obtain ⟨hr, -, href⟩ := hfold r s' he
  have hwalk : walk (oneFile 1 false).mem.ino (startOf (oneFile 1 false).mem 0 [47, 102])
      ((components [47, 102]).map (·.take DIRSIZ)) = some 2 := by
    decide
  rw [hwalk] at hr
  refine ⟨r, s', he, hr, ?_, ?_⟩
  · rw [href 1, hr]; rfl
  · rw [href 2, hr]; rfl

end Xv6.Fs
