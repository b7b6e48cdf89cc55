/-
A directory is a finite map from names to inodes. Its bytes are read as entries; `dirlookup` scans them, `dirlink`
writes one entry and `sys_unlink` clears one, through `readi` and `writei`, so what happens to the list of entries is
what the file system above does to it, and that no two live entries have one name is kept by every call. One entry
changes one block of the directory, so there is room for it in the log of any transaction that `begin_op` lets start.
-/
import Xv6.Content.Bytes
import Xv6.Fs.Entries

namespace Xv6.Content

open Base Fs
open Mkfs.Kernel (namecmp strncmp_iff DIRENT)

/-! ## Entries -/

/-- An entry as it is read: the number, and the name up to a NUL. -/
def entAt (b : Nat → UInt8) : Dirent := ⟨getLE b 0 2, (toList b 2 DIRSIZ).takeWhile (· ≠ 0)⟩

def entries (s : Vol) :
    List Dirent := (List.range (s.ip.size / DIRENT)).map fun k => entAt (slice (byteAt s) (DIRENT * k))

variable {s : Vol} {k : Nat}

section

variable {b b' : Nat → UInt8}

theorem entAt_congr (h : ∀ a < DIRENT, b a = b' a) : entAt b = entAt b' := by
  have hnum : getLE b 0 2 = getLE b' 0 2 := getLE_congr fun a _ ha => h a (ha.trans_le (by decide))
  have hname : toList b 2 DIRSIZ = toList b' 2 DIRSIZ := toList_congr fun j hj => h (2 + j) (Nat.add_lt_add_left hj 2)
  rw [entAt, entAt, hnum, hname]

theorem zero_notMem_takeWhile (l : List UInt8) : 0 ∉ l.takeWhile (· ≠ 0) := fun h => by
  have := List.mem_takeWhile_imp h; simp at this

theorem takeWhile_append_zeros {l : List UInt8} (h : 0 ∉ l) (m : Nat) :
    (l ++ List.replicate m 0).takeWhile (· ≠ 0) = l := by
  have hall : ∀ x ∈ l, decide (x ≠ 0) = true := fun x hx => decide_eq_true fun h0 => h (by rwa [← h0])
  rw [List.takeWhile_append_of_pos hall]
  cases m with
  | zero | succ m => exact List.append_nil l

theorem ofList_takeWhile : ∀ {l : List UInt8} {j : Nat}, j < l.length → j ≤ (l.takeWhile (· ≠ 0)).length →
    ofList (l.takeWhile (· ≠ 0)) j = ofList l j
  | [], _, h, _ => (not_lt_zero h).elim
  | x :: l, j, h, hle => by
    rw [List.takeWhile_cons] at hle ⊢
    by_cases hx : x = 0
    · rw [if_neg (by simpa using hx)] at hle ⊢
      obtain rfl := Nat.le_zero.1 hle
      exact hx.symm
    · rw [if_pos (by simpa using hx)] at hle ⊢
      cases j with
      | zero => rfl
      | succ j => exact ofList_takeWhile (Nat.lt_of_succ_lt_succ h) (Nat.le_of_succ_le_succ hle)

theorem entAt_bytes {i : Nat} {name : Name} (hi : i < 65536) (h0 : 0 ∉ name) (hlen : name.length ≤ DIRSIZ) :
    entAt (ofList (Dirent.bytes ⟨i, name⟩)) = ⟨i, name⟩ := by
  have hnum : getLE (ofList (Dirent.bytes ⟨i, name⟩)) 0 2 = i := by
    show (UInt8.ofNat i).toNat + 256 * ((UInt8.ofNat (i / 256)).toNat + 256 * 0) = i
    rw [UInt8.toNat_ofNat', UInt8.toNat_ofNat']
    omega
  have hname : toList (ofList (Dirent.bytes ⟨i, name⟩)) 2 DIRSIZ = name ++ List.replicate (DIRSIZ - name.length) 0 := by
    refine List.ext_getElem ?_ fun j h1 h2 => ?_
    · rw [length_toList, List.length_append, List.length_replicate]; omega
    · rw [getElem_toList, ← ofList_eq h2, add_comm]; rfl
  rw [entAt, hnum, hname, takeWhile_append_zeros h0]

theorem entAt_zero : entAt (fun _ => 0) = {} := by decide

theorem length_entries (s : Vol) : (entries s).length = s.ip.size / DIRENT := by
  rw [entries, List.length_map, List.length_range]

theorem getElem_entries (h : k < (entries s).length) : (entries s)[k] = entAt (slice (byteAt s) (DIRENT * k)) := by
  simp only [entries, List.getElem_map, List.getElem_range]

end

/-! ## Directories -/

/-- A directory: whole entries, and no two live ones of one name. -/
structure Directory (s : Vol) : Prop extends NoHoles s where
  dir : s.ip.type = .dir
  whole : DIRENT ∣ s.ip.size
  distinct : Distinct (entries s)

/-- What `namecmp` compares of a name. -/
def key (name : List UInt8) : Name := name.take DIRSIZ

section

variable {name : List UInt8}

theorem Directory.size_eq (h : Directory s) : s.ip.size = DIRENT * (entries s).length := by
  rw [length_entries, Nat.mul_div_cancel' h.whole]

theorem Directory.size_lt (h : Directory s) : s.ip.size + DIRENT < 2 ^ 32 :=
  (Nat.add_le_add_right h.len DIRENT).trans_lt (by decide)

section

variable (h : Directory s) (hk : k < (entries s).length)

include h hk

theorem Directory.next : add32 (DIRENT * k) DIRENT = DIRENT * (k + 1) := by
  have hsz := h.size_eq
  have hlt := h.size_lt
  have hle : DIRENT * k ≤ DIRENT * (entries s).length := Nat.mul_le_mul_left _ hk.le
  rw [add32_eq (by omega), Nat.mul_succ]

theorem Directory.lt_size : DIRENT * k < s.ip.size := by
  rw [h.size_eq]; exact Nat.mul_lt_mul_of_pos_left hk (by decide)

theorem Directory.readEnt_eq (e : Panic) (name : List UInt8) :
    ∃ de, readEnt e (DIRENT * k) s = .ok (de, s) ∧ getLE de 0 2 = (entries s)[k].inum ∧
      (0 ∉ name → (namecmp (ofList name) (slice de 2) = true ↔ (entries s)[k].name = key name)) := by
  have hsz := h.size_eq
  have hlt := h.size_lt
  have hle : DIRENT * k + DIRENT ≤ s.ip.size := by
    rw [hsz, ← Nat.mul_succ]; exact Nat.mul_le_mul_left _ hk
  have hread : readi (DIRENT * k) DIRENT s = .ok (some (toList (byteAt s) (DIRENT * k) DIRENT), s) := by
    rw [readi_eq h.toNoHoles (by omega) (by decide), if_neg (by omega), contents, take_drop_toList,
      min_eq_left (by omega)]
  have hde : ∀ a < DIRENT, ofList (toList (byteAt s) (DIRENT * k) DIRENT) a =
      slice (byteAt s) (DIRENT * k) a := fun a ha => by
    rw [ofList_eq (by rwa [length_toList]), getElem_toList]; rfl
  refine ⟨ofList (toList (byteAt s) (DIRENT * k) DIRENT), ?_, ?_, fun h0 => ?_⟩
  · rw [readEnt, bind_ok hread, Option.getD_some, if_neg (not_not.2 (length_toList ..))]; rfl
  · rw [getElem_entries]
    exact getLE_congr fun a _ ha => hde a (ha.trans_le (by decide))
  · have hname : toList (ofList (toList (byteAt s) (DIRENT * k) DIRENT)) 2 DIRSIZ =
        toList (slice (byteAt s) (DIRENT * k)) 2 DIRSIZ :=
      toList_congr fun j hj => hde (2 + j) (Nat.add_lt_add_left hj 2)
    generalize ofList (toList (byteAt s) (DIRENT * k) DIRENT) = de at hname ⊢
    have hcmp : namecmp (ofList name) (slice de 2) = true ↔ key name = (toList de 2 DIRSIZ).takeWhile (· ≠ 0) := by
      refine strncmp_iff DIRSIZ 0 _ _ (fun hm => h0 (List.mem_of_mem_take hm)) (zero_notMem_takeWhile _)
        (List.length_take_le _ _) ((List.takeWhile_sublist _).length_le.trans (length_toList ..).le)
        (fun j hj _ => ?_) fun j hj hle => ?_
      · rw [zero_add, ofList, ofList, key, List.getD_eq_getElem?_getD, List.getD_eq_getElem?_getD,
          List.getElem?_take_of_lt hj]
      · rw [ofList_takeWhile (by rwa [length_toList]) hle, ofList_eq (by rwa [length_toList]),
          getElem_toList, slice, zero_add]
    rw [hcmp, hname, getElem_entries]
    exact eq_comm

end

theorem rounds (s : Vol) : (entries s).length < 0 + (s.ip.size + 1) := by
  rw [length_entries, zero_add]; exact Nat.lt_succ_of_le (Nat.div_le_self s.ip.size DIRENT)

theorem Directory.lookupLoop_eq (h : Directory s) (h0 : 0 ∉ name) :
    ∀ n k, k ≤ (entries s).length → (entries s).length < k + n →
    lookupLoop name n (DIRENT * k) s =
      .ok ((findEnt (key name) ((entries s).drop k) k).map fun p => (p.2, DIRENT * p.1), s) := by
  intro n
  induction n with
  | zero => intro k h1 h2; omega
  | succ n ih =>
    intro k hle hfuel
    rw [lookupLoop, get_bind]
    rcases lt_or_eq_of_le hle with hk | rfl
    · obtain ⟨de, hread, hnum, hname⟩ := h.readEnt_eq hk .lookupRead name
      have hih := ih (k + 1) hk (by omega)
      rw [if_pos (h.lt_size hk), bind_ok hread, hnum, h.next hk, List.drop_eq_getElem_cons hk, findEnt]
      by_cases hz : (entries s)[k].inum = 0
      · rw [if_pos hz, if_neg fun hc => hc.1 hz]; exact hih
      · rw [if_neg hz]
        by_cases hn : (entries s)[k].name = key name
        · rw [if_pos ((hname h0).2 hn), if_pos ⟨hz, hn⟩]; rfl
        · rw [if_neg fun hc => hn ((hname h0).1 hc), if_neg fun hc => hn hc.2]; exact hih
    · rw [if_neg (by rw [h.size_eq]; exact lt_irrefl _), List.drop_length]; rfl

theorem Directory.freeLoop_eq (h : Directory s) : ∀ n k, k ≤ (entries s).length → (entries s).length < k + n →
    freeLoop n (DIRENT * k) s = .ok (DIRENT * (k + ((entries s).drop k).findIdx fun e => e.inum = 0), s) := by
  intro n
  induction n with
  | zero => intro k h1 h2; omega
  | succ n ih =>
    intro k hle hfuel
    rw [freeLoop, get_bind]
    rcases lt_or_eq_of_le hle with hk | rfl
    · obtain ⟨de, hread, hnum, -⟩ := h.readEnt_eq hk .linkRead []
      have hih := ih (k + 1) hk (by omega)
      rw [if_pos (h.lt_size hk), bind_ok hread, hnum, h.next hk, List.drop_eq_getElem_cons hk, List.findIdx_cons]
      by_cases hz : (entries s)[k].inum = 0
      · rw [if_pos hz]; simp only [hz, decide_true, cond_true]; rfl
      · rw [if_neg hz, hih]
        simp only [hz, decide_false, cond_false]
        rw [add_assoc, add_comm 1]
    · rw [if_neg (by rw [h.size_eq]; exact lt_irrefl _), List.drop_length]; rfl

end

/-! ## Writing an entry -/

section

variable {s' : Vol} {src : Nat → UInt8}

theorem Directory.entries_write (h : Directory s) (hk : k ≤ (entries s).length)
    (hc : contents s' = writeData (contents s) (DIRENT * k) (toList src 0 DIRENT))
    (hs : s'.ip.size = max s.ip.size (DIRENT * k + DIRENT)) :
    DIRENT ∣ s'.ip.size ∧
      entries s' = if k < (entries s).length then (entries s).set k (entAt src) else entries s ++ [entAt src] := by
  have hsz := h.size_eq
  have hsize : s'.ip.size = DIRENT * max (entries s).length (k + 1) := by
    rw [hs, hsz, ← Nat.mul_succ, Nat.mul_max_mul_left]
  have hlen : (entries s').length = max (entries s).length (k + 1) := by
    rw [length_entries, hsize, Nat.mul_div_cancel_left _ (by decide)]
  have hle : DIRENT * k ≤ s.ip.size := by
    rw [hsz]; exact Nat.mul_le_mul_left _ hk
  have hbyte : ∀ j < (entries s').length, ∀ a < DIRENT, byteAt s' (DIRENT * j + a) =
      paste (byteAt s) (DIRENT * k) DIRENT src (DIRENT * j + a) := by
    intro j hj a ha
    refine byteAt_of_contents hc hle hs ?_
    have hj : DIRENT * (j + 1) ≤ DIRENT * max (entries s).length (k + 1) := Nat.mul_le_mul_left _ (by omega)
    rw [Nat.mul_succ] at hj
    omega
  have hnew : ∀ hj : k < (entries s').length, (entries s')[k] = entAt src := fun hj => by
    rw [getElem_entries]
    refine entAt_congr fun a ha => ?_
    rw [slice, hbyte k hj a ha, paste_add ha]
  have hold : ∀ j (hj' : j < (entries s').length) (hj : j < (entries s).length), j ≠ k →
      (entries s')[j] = (entries s)[j] := by
    intro j hj' hj hne
    rw [getElem_entries, getElem_entries]
    refine entAt_congr fun a ha => ?_
    rw [slice, slice, hbyte j hj' a ha, paste_out]
    unfold DIRENT at *
    omega
  refine ⟨⟨_, hsize⟩, ?_⟩
  split
  · rename_i hlt
    refine List.ext_getElem (by rw [List.length_set]; omega) fun j h1 h2 => ?_
    rw [List.getElem_set]
    split
    · rename_i hkj; subst hkj; exact hnew h1
    · rename_i hkj; exact hold j h1 _ (Ne.symm hkj)
  · refine List.ext_getElem (by rw [List.length_append, List.length_singleton]; omega) fun j h1 h2 => ?_
    rw [List.getElem_append]
    split
    · rename_i hj; exact hold j h1 hj (by omega)
    · obtain rfl : j = k := by omega
      rw [List.getElem_singleton]
      exact hnew h1

theorem Directory.write_ends (h : Directory s) (hlog : LogRoom s 1) {es : List Dirent} (hk : k ≤ (entries s).length)
    (hes : (if k < (entries s).length then (entries s).set k (entAt src) else entries s ++ [entAt src]) = es)
    (hu : Distinct es) (hmax : DIRENT * k + DIRENT ≤ MAXFILE * BSIZE) :
    Ends (fun e => e = .balloc ∧ ¬ Enough s (DIRENT * k + DIRENT)) (fun r s' => r = some DIRENT ∧ Directory s' ∧
      entries s' = es) (writei src (DIRENT * k) DIRENT s) := by
  have hle : DIRENT * k ≤ s.ip.size := by
    rw [h.size_eq]; exact Nat.mul_le_mul_left _ hk
  have hblock : nblocks (DIRENT * k + DIRENT) ≤ DIRENT * k / BSIZE + 1 := by
    unfold nblocks DIRENT BSIZE; omega
  refine (writei_writes _ h.toNoHoles hle hmax (nblocks_le_maxfile hmax) le_rfl fun _ => hblock).mono (fun _ he => ?_)
    fun r s' ⟨hr, h', hc, hs, ht, _⟩ => ?_
  · rcases he with ⟨he, hdisk⟩ | ⟨-, hfull⟩
    · exact ⟨he, not_le.2 hdisk⟩
    · exact (hlog.not_full hfull).elim
  obtain ⟨hdvd, hent⟩ := h.entries_write hk hc hs
  rw [hes] at hent
  exact ⟨hr, ⟨h', ht.trans h.dir, hdvd, hent ▸ hu⟩, hent⟩

end

/-! ## The calls -/

/-- There is a free entry, or the file can take one more. -/
def Room (s : Vol) : Prop := (∃ e ∈ entries s, e.inum = 0) ∨ s.ip.size + DIRENT ≤ MAXFILE * BSIZE

section

variable {name : List UInt8} {inum : Nat}

theorem Directory.dirlookup_eq (h : Directory s) (h0 : 0 ∉ name) :
    dirlookup name s = .ok ((findEnt (key name) (entries s) 0).map fun p => (p.2, DIRENT * p.1), s) := by
  rw [dirlookup, get_bind, if_neg (not_not.2 h.dir)]
  exact h.lookupLoop_eq h0 _ 0 zero_le (rounds s)

theorem Directory.dirlink_present (h : Directory s) (h0 : 0 ∉ name) (hp : findEnt (key name) (entries s) 0 ≠ none) :
    dirlink name inum s = .ok (false, s) := by
  obtain ⟨p, hf⟩ := Option.ne_none_iff_exists'.1 hp
  rw [dirlink, bind_ok (h.dirlookup_eq h0), hf]
  rfl

theorem Directory.dirlink_absent (h : Directory s) (hlog : LogRoom s 1) (h0 : 0 ∉ name) (hi : inum < 65536)
    (hn : findEnt (key name) (entries s) 0 = none) :
    Ends (fun e => ¬ Room s ∨ e = .balloc ∧ ¬ Enough s (s.ip.size + DIRENT))
      (fun r s' => r = true ∧ Directory s' ∧ entries s' = putEnt ⟨inum, key name⟩ (entries s))
      (dirlink name inum s) := by
  have hent : entAt (ofList (dirent name inum)) = ⟨inum, key name⟩ :=
    entAt_bytes hi (fun hm => h0 (List.mem_of_mem_take hm)) (List.length_take_le _ _)
  have hfree := h.freeLoop_eq _ 0 zero_le (rounds s)
  rw [List.drop_zero, zero_add, mul_zero] at hfree
  have hput := putEnt_eq ⟨inum, key name⟩ (entries s)
  have hle : (entries s).findIdx (fun e => e.inum = 0) ≤ (entries s).length := List.findIdx_le_length
  have hlt : (entries s).findIdx (fun e => e.inum = 0) < (entries s).length ↔ ∃ e ∈ entries s, e.inum = 0 := by
    simp only [List.findIdx_lt_length, decide_eq_true_eq]
  rw [dirlink, bind_ok (h.dirlookup_eq h0), hn]
  show Ends _ _ ((do
    let s ← get
    let off ← freeLoop (s.ip.size + 1) 0
    let r ← writei (ofList (dirent name inum)) off DIRENT
    if r ≠ some DIRENT then throw .link else pure true : M Bool) s)
  rw [get_bind, bind_ok hfree]
  generalize (entries s).findIdx (fun e => e.inum = 0) = k at hput hle hlt ⊢
  have hsz := h.size_eq
  have hmul : DIRENT * k ≤ DIRENT * (entries s).length := Nat.mul_le_mul_left _ hle
  by_cases hmax : DIRENT * k + DIRENT ≤ MAXFILE * BSIZE
  · -- an entry behind the last is the only one that may need a block
    have hdisk : ¬ Enough s (DIRENT * k + DIRENT) → ¬ Enough s (s.ip.size + DIRENT) := fun hbad => by
      rcases lt_or_eq_of_le hle with hk | rfl
      · refine absurd (h.enough ?_) hbad
        rw [hsz, ← Nat.mul_succ]
        exact Nat.mul_le_mul_left _ hk
      · rwa [hsz]
    have hu : Distinct (putEnt ⟨inum, key name⟩ (entries s)) := h.distinct.putEnt hn
    refine ((h.write_ends hlog hle (by rw [hent, ← hput]) hu hmax).err fun _ he => .inr ⟨he.1, hdisk he.2⟩).bind
      fun r s' ⟨hr, h', he⟩ => ?_
    subst hr
    exact ⟨rfl, h', he⟩
  · have hwrite : writei (ofList (dirent name inum)) (DIRENT * k) DIRENT s = .ok (none, s) := by
      have hlen := h.len
      have h32 := h.size_lt
      exact writei_refuses h.toNoHoles (by omega) (by decide) (by omega)
    rw [bind_ok hwrite]
    -- the file is full, and no entry is free
    refine .inl ?_
    have hlen := h.len
    rintro (hfr | hroom)
    · have hk : DIRENT * (k + 1) ≤ DIRENT * (entries s).length := Nat.mul_le_mul_left _ (hlt.2 hfr)
      rw [Nat.mul_succ] at hk
      omega
    · omega

theorem Directory.unlink_absent (h : Directory s) (h0 : 0 ∉ name) (hn : findEnt (key name) (entries s) 0 = none) :
    unlink name s = .ok (false, s) := by
  rw [unlink, bind_ok (h.dirlookup_eq h0), hn]
  rfl

theorem Directory.unlink_present (h : Directory s) (hlog : LogRoom s 1) (h0 : 0 ∉ name) {k : Nat} {i : Inum}
    (hf : findEnt (key name) (entries s) 0 = some (k, i)) :
    ∃ s', unlink name s = .ok (true, s') ∧ Directory s' ∧ entries s' = (entries s).set k {} := by
  obtain ⟨e, -, hk, -⟩ := findEnt_get hf
  rw [Nat.sub_zero] at hk
  have hlt : k < (entries s).length := (List.getElem?_eq_some_iff.1 hk).1
  have hle : DIRENT * k + DIRENT ≤ s.ip.size := by
    rw [h.size_eq, ← Nat.mul_succ]; exact Nat.mul_le_mul_left _ hlt
  have hes : (if k < (entries s).length then (entries s).set k (entAt fun _ => 0)
      else entries s ++ [entAt fun _ => 0]) = (entries s).set k {} := by rw [if_pos hlt, entAt_zero]
  have hw : Ends (fun _ => False) _ _ :=
    (h.write_ends hlog hlt.le hes (h.distinct.clear k) (hle.trans h.len)).err fun _ hbad => hbad.2 (h.enough hle)
  obtain ⟨r, s', hrun, rfl, h', hent⟩ := hw.exists_ok
  refine ⟨s', ?_, h', hent⟩
  rw [unlink, bind_ok (h.dirlookup_eq h0), hf]
  exact bind_ok hrun

end

/-! ## Every directory -/

/-- The directories that an empty one becomes, by entries and removals. Every call finds room for an entry in the log:
the header it starts with, `lh`, is that of another transaction. -/
inductive Built : Vol → Prop
  | empty {s : Vol} : NoHoles s → s.ip.type = .dir → s.ip.size = 0 → LogRoom s 1 → Built s
  | link {s s' : Vol} {name : List UInt8} {inum : Nat} {r : Bool} {lh : Finset Nat} : Built s → 0 ∉ name → 0 < inum →
      inum < 65536 → dirlink name inum s = .ok (r, s') → LogRoom { s' with lh := lh } 1 → Built { s' with lh := lh }
  | unlink {s s' : Vol} {name : List UInt8} {r : Bool} {lh : Finset Nat} : Built s → 0 ∉ name →
      unlink name s = .ok (r, s') → LogRoom { s' with lh := lh } 1 → Built { s' with lh := lh }

/-- `begin_op` admits a transaction, however large the disk is. -/
theorem logRoom_of_admitted (h : s.lh.card + MAXOPBLOCKS ≤ LOGSIZE) : LogRoom s 1 := by
  simp only [LogRoom, nlog, LOGSIZE, MAXOPBLOCKS] at h ⊢; omega

theorem logRoom_empty (s : Vol) : LogRoom { s with lh := ∅ } 1 :=
  logRoom_of_admitted (by show 0 + MAXOPBLOCKS ≤ LOGSIZE; decide)

theorem Built.logRoom (h : Built s) : LogRoom s 1 := by
  cases h with
  | empty _ _ _ hlog | link _ _ _ _ _ hlog | unlink _ _ _ hlog => exact hlog

theorem Directory.setLh (h : Directory s) (lh : Finset Nat) : Directory { s with lh := lh } :=
  ⟨h.toNoHoles.setLh lh, h.dir, h.whole, h.distinct⟩

theorem Built.directory (h : Built s) : Directory s := by
  induction h with
  | @empty s h hd h0 =>
    have hnil : entries s = [] := by
      rw [entries, h0]; rfl
    exact ⟨h, hd, h0 ▸ Nat.dvd_zero _, hnil ▸ .nil⟩
  | @link s s' name inum r lh hb h0 _ hi hrun _ ih =>
    by_cases hn : findEnt (key name) (entries s) 0 = none
    · have hends := ih.dirlink_absent hb.logRoom h0 hi hn
      rw [hrun] at hends
      exact hends.2.1.setLh lh
    · rw [ih.dirlink_present h0 hn] at hrun; cases hrun; exact ih.setLh lh
  | @unlink s s' name r lh hb h0 hrun _ ih =>
    cases hf : findEnt (key name) (entries s) 0 with
    | none => rw [ih.unlink_absent h0 hf] at hrun; cases hrun; exact ih.setLh lh
    | some p =>
      obtain ⟨s1, hrun1, hdir, -⟩ := ih.unlink_present hb.logRoom h0 hf
      rw [hrun1] at hrun
      cases hrun
      exact hdir.setLh lh

theorem binding_eq_none {es : List Dirent} {name : Name} :
    binding es name = none ↔ findEnt name es 0 = none := Option.map_eq_none_iff

/-- A directory is a finite map from names to inode numbers, whatever calls have made it. -/
theorem directory_finite_map {s : Vol} (h : Built s) :
    Distinct (entries s) ∧
    (∀ name, 0 ∉ name → ∃ r, dirlookup name s = .ok (r, s) ∧ r.map Prod.fst = binding (entries s) (key name) ∧
      ∀ i off, r = some (i, off) ↔ i ≠ 0 ∧ ∃ k, off = DIRENT * k ∧ (entries s)[k]? = some ⟨i, key name⟩) ∧
    (∀ name inum, 0 ∉ name → 0 < inum → inum < 65536 →
      (binding (entries s) (key name) ≠ none → dirlink name inum s = .ok (false, s)) ∧
      (binding (entries s) (key name) = none → Room s →
        (∃ s', dirlink name inum s = .ok (true, s') ∧ entries s' = putEnt ⟨inum, key name⟩ (entries s) ∧
          binding (entries s') = Function.update (binding (entries s)) (key name) (some inum)) ∨
        dirlink name inum s = .error .balloc ∧ ¬ Enough s (s.ip.size + DIRENT))) ∧
    ∀ name, 0 ∉ name →
      (binding (entries s) (key name) = none → unlink name s = .ok (false, s)) ∧
      (binding (entries s) (key name) ≠ none → ∃ s', unlink name s = .ok (true, s') ∧
        binding (entries s') = Function.update (binding (entries s)) (key name) none) := by
  have hd := h.directory
  refine ⟨hd.distinct, fun name h0 => ⟨_, hd.dirlookup_eq h0, ?_, fun i off => ?_⟩, fun name inum h0 hpos hi =>
    ⟨fun hp => ?_, fun hn hroom => ?_⟩,
    fun name h0 => ⟨fun hn => hd.unlink_absent h0 (binding_eq_none.1 hn), fun hp => ?_⟩⟩
  · rw [binding, Option.map_map]; rfl
  · constructor
    · intro hr
      obtain ⟨⟨k, i'⟩, hf, heq⟩ := Option.map_eq_some_iff.1 hr
      obtain ⟨e, -, hk, rfl, hi0, hname⟩ := findEnt_get hf
      obtain ⟨rfl, rfl⟩ := Prod.mk.inj heq
      rw [Nat.sub_zero] at hk
      exact ⟨hi0, k, rfl, by rw [hk, ← hname]⟩
    · rintro ⟨hi0, k, rfl, hk⟩
      have hf := hd.distinct.findEnt_eq 0 hk hi0
      rw [show findEnt (key name) (entries s) 0 = some (0 + k, i) from hf, zero_add]
      rfl
  · exact hd.dirlink_present h0 fun hf => hp (binding_eq_none.2 hf)
  · rw [binding_eq_none] at hn
    have hends := hd.dirlink_absent h.logRoom h0 hi hn
    cases hrun : dirlink name inum s with
    | error e =>
      rw [hrun] at hends
      rcases hends with hbad | ⟨rfl, hdisk⟩
      · exact (hbad hroom).elim
      · exact .inr ⟨rfl, hdisk⟩
    | ok p =>
      obtain ⟨r, s'⟩ := p
      rw [hrun] at hends
      obtain ⟨rfl, -, hent⟩ := hends
      refine .inl ⟨s', rfl, hent, ?_⟩
      rw [hent]
      exact binding_putEnt hpos.ne' hn
  · obtain ⟨⟨k, i⟩, hf⟩ := Option.ne_none_iff_exists'.1 fun hf => hp (binding_eq_none.2 hf)
    obtain ⟨s', hrun, -, hent⟩ := hd.unlink_present h.logRoom h0 hf
    refine ⟨s', hrun, ?_⟩
    rw [hent]
    exact hd.distinct.binding_clear hf

/-- The next transaction starts with an empty header. -/
theorem Built.link_ok (h : Built s) (name : List UInt8) (inum : Nat) (h0 : 0 ∉ name) (hpos : 0 < inum)
    (hi : inum < 65536) (hn : findEnt (key name) (entries s) 0 = none) (hroom : Room s)
    (hdisk : Enough s (s.ip.size + DIRENT)) :
    ∃ s', dirlink name inum s = .ok (true, s') ∧ Built { s' with lh := ∅ } ∧
      entries s' = putEnt ⟨inum, key name⟩ (entries s) := by
  have hends := (h.directory.dirlink_absent h.logRoom h0 hi hn).err fun e (he : _ ∨ _) =>
    he.elim (fun hbad => hbad hroom) fun hbad => hbad.2 hdisk
  obtain ⟨r, s', hrun, rfl, -, hent⟩ := hends.exists_ok
  exact ⟨s', hrun, h.link h0 hpos hi hrun (logRoom_empty _), hent⟩

theorem Built.enough (h : Built s) (hlo : 0 < (entries s).length) (hhi : (entries s).length < 32) :
    Enough s (s.ip.size + DIRENT) := by
  have hsz : s.ip.size = 16 * (entries s).length := h.directory.size_eq
  have hone := h.directory.enough le_rfl
  have heq : nblocks (s.ip.size + DIRENT) = nblocks s.ip.size := by
    unfold nblocks DIRENT BSIZE; omega
  rwa [Enough, heq]

/-- Two entries, the first one removed, and a third name in its place. -/
theorem directory_finite_map_reused : ∃ s1 s2 s3 s4, dirlink [97] 5 (blank .dir) = .ok (true, s1) ∧
    dirlink [98] 6 { s1 with lh := ∅ } = .ok (true, s2) ∧ unlink [97] { s2 with lh := ∅ } = .ok (true, s3) ∧
    Built { s3 with lh := ∅ } ∧ dirlookup [97] { s3 with lh := ∅ } = .ok (none, { s3 with lh := ∅ }) ∧
    dirlink [99] 7 { s3 with lh := ∅ } = .ok (true, s4) ∧ entries s4 = [⟨7, [99]⟩, ⟨6, [98]⟩] ∧
    binding (entries s4) [98] = some 6 := by
  have hb : Built (blank .dir) := .empty (blank_noHoles (by decide)) rfl rfl (logRoom_empty (blank .dir))
  obtain ⟨s1, hrun1, hb1, he1⟩ := hb.link_ok [97] 5 (by decide) (by decide) (by decide) rfl (.inr (by decide))
    (blank_enough _ (by decide))
  have he1 : entries { s1 with lh := ∅ } = [⟨5, [97]⟩] := he1
  have hroom : Room { s1 with lh := ∅ } := by
    refine .inr ?_
    rw [hb1.directory.size_eq, he1]
    decide
  obtain ⟨s2, hrun2, hb2, he2⟩ := hb1.link_ok [98] 6 (by decide) (by decide) (by decide) (by rw [he1]; rfl) hroom
    (hb1.enough (by rw [he1]; decide) (by rw [he1]; decide))
  have he2 : entries { s2 with lh := ∅ } = [⟨5, [97]⟩, ⟨6, [98]⟩] := by
    rw [show entries { s2 with lh := ∅ } = entries s2 from rfl, he2, he1]; rfl
  have h97 : (0 : UInt8) ∉ [97] := by decide
  obtain ⟨s3, hrun3, -, he3⟩ := hb2.directory.unlink_present (k := 0) (i := 5) hb2.logRoom h97 (by rw [he2]; rfl)
  have hb3 : Built { s3 with lh := ∅ } := hb2.unlink h97 hrun3 (logRoom_empty _)
  have he3 : entries { s3 with lh := ∅ } = [{}, ⟨6, [98]⟩] := by
    rw [show entries { s3 with lh := ∅ } = entries s3 from rfl, he3, he2]; rfl
  obtain ⟨-, hlook, hlink, -⟩ := directory_finite_map hb3
  obtain ⟨r, hr, hmap, -⟩ := hlook [97] (by decide)
  rw [he3, show binding [{}, ⟨6, [98]⟩] (key [97]) = none from rfl, Option.map_eq_none_iff] at hmap
  subst hmap
  rcases (hlink [99] 7 (by decide) (by decide) (by decide)).2 (by rw [he3]; rfl)
    (.inl ⟨{}, by rw [he3]; decide, rfl⟩) with
    ⟨s4, hrun4, hent, -⟩ | ⟨-, hdisk⟩
  · rw [he3] at hent
    exact ⟨s1, s2, s3, s4, hrun1, hrun2, hrun3, hb3, hr, hrun4, hent, by rw [hent]; rfl⟩
  · exact (hdisk (hb3.enough (by rw [he3]; decide) (by rw [he3]; decide))).elim

end Xv6.Content
