/-
The two functions named `memmove`: the kernel's of `string.c`, which chooses the direction of copying by a
comparison of the pointers, and that of `ulib.c`, which always copies upwards. Addresses are 32 bits wide, so
the comparison is made on a sum that may wrap.
-/
import Mathlib.Algebra.Group.Nat.Even

namespace Xv6.Lib

open Function

/-- Memory, byte by byte. -/
abbrev Mem := UInt32 → UInt8

/-- `while(n-- > 0) *d++ = *s++;` -/
def copyUp : Nat → UInt32 → UInt32 → Mem → Mem
  | 0, _, _, m => m
  | n + 1, d, s, m => copyUp n (d + 1) (s + 1) (update m d (m s))

/-- `while(n-- > 0) *--d = *--s;` -/
def copyDown : Nat → UInt32 → UInt32 → Mem → Mem
  | 0, _, _, m => m
  | n + 1, d, s, m => copyDown n (d - 1) (s - 1) (update m (d - 1) (m (s - 1)))

/-- `memmove` of `string.c`: the pointer it returns and the memory after it. -/
def memmove (dst src n : UInt32) (m : Mem) : UInt32 × Mem :=
  if src < dst ∧ src + n > dst then (dst, copyDown n.toNat (dst + n) (src + n) m) else (dst, copyUp n.toNat dst src m)

/-- `memmove` of `ulib.c`; `n` is an `int`, and a negative one copies nothing. -/
def ulibMemmove (vdst vsrc : UInt32) (n : Int32) (m : Mem) : UInt32 × Mem :=
  (vdst, copyUp n.toNatClampNeg vdst vsrc m)

/-! ## Addresses -/

def off (p : UInt32) (i : Nat) : UInt32 := p + UInt32.ofNat i

variable {p d s a : UInt32} {i j k n : Nat} {m : Mem}

theorem off_zero : off p 0 = p := UInt32.add_zero p

theorem off_off : off (off p i) j = off p (i + j) := by
  rw [off, off, off, UInt32.add_assoc, UInt32.ofNat_add]

theorem off_ne (h : i < j) (h' : j < i + 2 ^ 32) : off p i ≠ off p j := by
  intro e
  have e := congrArg UInt32.toNat ((UInt32.add_right_inj p).1 e)
  simp only [UInt32.toNat_ofNat'] at e
  omega

theorem add_eq_off (p n : UInt32) : p + n = off p n.toNat := by
  rw [off, UInt32.ofNat_toNat]

theorem off_of_toNat (h : (s.toNat + k) % 2 ^ 32 = d.toNat) : d = off s k := by
  apply UInt32.toNat_inj.1
  rw [off, UInt32.toNat_add, UInt32.toNat_ofNat', ← h]
  omega

/-! ## The loops -/

theorem copyUp_succ : ∀ (n : Nat) (d s : UInt32) (m : Mem),
    copyUp (n + 1) d s m = update (copyUp n d s m) (off d n) (copyUp n d s m (off s n))
  | 0, d, s, m => by
    rw [off_zero, off_zero]; rfl
  | n + 1, d, s, m => by
    have hoff : ∀ p, off (p + 1) n = off p (n + 1) := fun p => by
      rw [Nat.add_comm]; exact off_off (i := 1)
    rw [copyUp, copyUp_succ n, hoff, hoff]
    rfl

theorem copyUp_frame : ∀ {n : Nat}, (∀ i, i < n → a ≠ off d i) → copyUp n d s m a = m a
  | 0, _ => rfl
  | n + 1, h => by
    rw [copyUp_succ, update_of_ne (h n (Nat.lt_succ_self n))]
    exact copyUp_frame fun i hi => h i (by omega)

/-- Copying upwards to a place `k` bytes behind: what lies `k` or more bytes into the source has been overwritten
with what was copied before. -/
theorem copyUp_reads (hk : 0 < k) (hk' : k ≤ 2 ^ 32) : ∀ {n : Nat}, n ≤ 2 ^ 32 → j < n →
    copyUp n (off s k) s m (off s (k + j)) = if j < k then m (off s j) else copyUp n (off s k) s m (off s j)
  | n + 1, hn, hj => by
    rw [copyUp_succ, off_off]
    by_cases e : j = n
    · subst e
      rw [update_self]
      by_cases hjk : j < k
      · rw [if_pos hjk]
        refine copyUp_frame fun i hi => ?_
        rw [off_off]
        exact off_ne (by omega) (by omega)
      · rw [if_neg hjk, update_of_ne (off_ne (by omega) (by omega))]
    · rw [update_of_ne (off_ne (by omega) (by omega)), copyUp_reads hk hk' (by omega) (by omega)]
      by_cases hjk : j < k
      · rw [if_pos hjk, if_pos hjk]
      · rw [if_neg hjk, if_neg hjk, update_of_ne (off_ne (by omega) (by omega))]

theorem copyDown_succ (n : Nat) (d s : UInt32) (m : Mem) : copyDown (n + 1) (off d (n + 1)) (off s (n + 1)) m =
    copyDown n (off d n) (off s n) (update m (off d n) (m (off s n))) := by
  have hoff : ∀ p, off p (n + 1) - 1 = off p n := fun p => by
    rw [← off_off]; exact UInt32.add_sub_cancel _ 1
  rw [copyDown, hoff, hoff]

theorem copyDown_frame : ∀ {n : Nat} {m : Mem}, (∀ i, i < n → a ≠ off d i) → copyDown n (off d n) (off s n) m a = m a
  | 0, _, _ => rfl
  | n + 1, m, h => by
    rw [copyDown_succ, copyDown_frame fun i hi => h i (by omega), update_of_ne (h n (Nat.lt_succ_self n))]

/-- Copying downwards from a place so far behind that the source is read before it is overwritten. -/
theorem copyDown_reads (hk' : k ≤ 2 ^ 32) : ∀ {n : Nat} {m : Mem}, n ≤ k → j < n →
    copyDown n (off d n) (off (off d k) n) m (off d j) = m (off (off d k) j)
  | n + 1, m, hk, hj => by
    rw [copyDown_succ]
    by_cases e : j = n
    · subst e; rw [copyDown_frame fun i hi => Ne.symm (off_ne hi (by omega)), update_self]
    · rw [copyDown_reads hk' (by omega) (by omega), update_of_ne]
      rw [off_off]
      exact Ne.symm (off_ne (by omega) (by omega))

/-! ## The functions -/

variable {dst src : UInt32}

theorem copyUp_disjoint (hk : 0 < k) (hk' : k ≤ 2 ^ 32) (hn : n ≤ k) (hd : dst = off src k) (hi : i < n) :
    copyUp n dst src m (off dst i) = m (off src i) := by
  subst hd
  rw [off_off, copyUp_reads hk hk' (by omega) hi, if_pos (by omega)]

section

variable {n : UInt32}

theorem memmove_frame (ha : ∀ i, i < n.toNat → a ≠ off dst i) : (memmove dst src n m).2 a = m a := by
  unfold memmove
  split
  · rw [add_eq_off, add_eq_off]; exact copyDown_frame ha
  · exact copyUp_frame ha

/-- The comparison of the pointers picks the direction in which every byte is read before it is overwritten. -/
theorem memmove_reads (hd : dst.toNat + n.toNat ≤ 2 ^ 32) (hs : src.toNat + n.toNat ≤ 2 ^ 32) (hi : i < n.toNat) :
    (memmove dst src n m).2 (off dst i) = m (off src i) := by
  have hdl := dst.toNat_lt
  have hsl := src.toNat_lt
  unfold memmove
  simp only [UInt32.lt_iff_toNat_lt, gt_iff_lt, UInt32.toNat_add]
  split
  · obtain ⟨k, hk⟩ : ∃ k, k + dst.toNat = src.toNat + 2 ^ 32 := ⟨src.toNat + 2 ^ 32 - dst.toNat, by omega⟩
    obtain rfl : src = off dst k := off_of_toNat (by omega)
    rw [add_eq_off, add_eq_off]
    exact copyDown_reads (by omega) (by omega) hi
  · exact copyUp_disjoint (k := (dst.toNat + 2 ^ 32 - src.toNat - 1) % 2 ^ 32 + 1) (by omega) (by omega) (by omega)
      (off_of_toNat (by omega)) hi

end

/-- What `memmove` of `string.c` leaves: the destination is as the source was, and nothing else has changed. -/
theorem memmove_snapshot (m : Mem) (dst src n : UInt32) (hd : dst.toNat + n.toNat ≤ 2 ^ 32)
    (hs : src.toNat + n.toNat ≤ 2 ^ 32) :
    (∀ i, i < n.toNat → (memmove dst src n m).2 (off dst i) = m (off src i)) ∧
      ∀ a, (∀ i, i < n.toNat → a ≠ off dst i) → (memmove dst src n m).2 a = m a :=
  ⟨fun _ hi => memmove_reads hd hs hi, fun _ ha => memmove_frame ha⟩

/-- Two bytes are moved up by one. -/
theorem memmove_snapshot_byOne : (memmove 1 0 2 fun a => a.toUInt8).2 2 = 1 :=
  (memmove_snapshot (fun a => a.toUInt8) 1 0 2 (by decide) (by decide)).1 1 (by decide)

/-- Copying upwards to a place `k` bytes behind copies all `n` bytes as they were if those that are overwritten
before they are read are overwritten with what they were, and only then. -/
theorem copyUp_exact_iff (hk : 0 < k) (hn : k + n ≤ 2 ^ 32) :
    (∀ j, j < n → copyUp n (off s k) s m (off s (k + j)) = m (off s j)) ↔
      ∀ i, i + k < n → m (off s (k + i)) = m (off s i) := by
  constructor
  · intro h i hi
    rw [← h (k + i) (by omega), copyUp_reads hk (by omega) (by omega) (by omega), if_neg (by omega)]
    exact h i (by omega)
  · intro h j hj
    induction j using Nat.strongRecOn with
    | ind j ih =>
      rw [copyUp_reads hk (by omega) (by omega) hj]
      split
      · rfl
      · obtain ⟨i, rfl⟩ := Nat.exists_eq_add_of_le (Nat.le_of_not_lt ‹_›)
        rw [ih i (by omega) (by omega), h i (by omega)]

/-- The two functions leave the same memory exactly when every source byte that `ulib.c` overwrites before it reads
it is overwritten with what it was. -/
theorem ulib_agrees_iff (m : Mem) (dst src : UInt32) (n : Int32) (hn : 0 ≤ n)
    (hd : dst.toNat + n.toNatClampNeg ≤ 2 ^ 32) (hs : src.toNat + n.toNatClampNeg ≤ 2 ^ 32) :
    (ulibMemmove dst src n m).2 = (memmove dst src n.toUInt32 m).2 ↔
      (src < dst → ∀ i, i + (dst - src).toNat < n.toNatClampNeg → m (off dst i) = m (off src i)) := by
  have hdl := dst.toNat_lt
  have hsl := src.toNat_lt
  have hnat := Int32.toNat_toUInt32_of_le hn
  have hin : ∀ j, j < n.toNatClampNeg → (memmove dst src n.toUInt32 m).2 (off dst j) = m (off src j) :=
    fun j hj => memmove_reads (by omega) (by omega) (by omega)
  -- outside the destination both leave the memory as it was
  have hcopied : (ulibMemmove dst src n m).2 = (memmove dst src n.toUInt32 m).2 ↔
      ∀ j, j < n.toNatClampNeg → copyUp n.toNatClampNeg dst src m (off dst j) = m (off src j) := by
    constructor
    · intro e j hj; rw [← hin j hj, ← e]; rfl
    · intro h
      funext a
      by_cases ha : ∃ j, j < n.toNatClampNeg ∧ a = off dst j
      · obtain ⟨j, hj, rfl⟩ := ha; exact (h j hj).trans (hin j hj).symm
      · have ha : ∀ j, j < n.toNatClampNeg → a ≠ off dst j := fun j hj e => ha ⟨j, hj, e⟩
        exact (copyUp_frame ha).trans (memmove_frame (hnat ▸ ha)).symm
  rw [hcopied]
  by_cases h : src < dst
  · have hlt := UInt32.lt_iff_toNat_lt.1 h
    obtain ⟨k, hk⟩ : ∃ k, k = dst.toNat - src.toNat := ⟨_, rfl⟩
    obtain rfl : dst = off src k := off_of_toNat (by omega)
    rw [UInt32.toNat_sub_of_le _ _ (UInt32.le_of_lt h), ← hk]
    simp only [off_off, h, forall_const]
    exact copyUp_exact_iff (by omega) (by omega)
  · have hle := mt UInt32.lt_iff_toNat_lt.2 h
    refine ⟨fun _ hlt => absurd hlt h, fun _ j hj => ?_⟩
    exact copyUp_disjoint (k := dst.toNat + 2 ^ 32 - src.toNat) (by omega) (by omega) (by omega)
      (off_of_toNat (by omega)) hj

/-- grep's shift of the rest of a line to the start of its buffer, three bytes down by two. -/
theorem ulib_agrees_down : (ulibMemmove 16 18 3 fun a => a.toUInt8).2 = (memmove 16 18 3 fun a => a.toUInt8).2 :=
  (ulib_agrees_iff (fun a => a.toUInt8) 16 18 3 (by decide) (by decide) (by decide)).2 fun h => absurd h (by decide)

/-- Two bytes moved up by one: `ulib.c` copies the first byte twice. -/
theorem ulib_repeats_byte : (ulibMemmove 1 0 2 fun a => a.toUInt8).2 ≠ (memmove 1 0 2 fun a => a.toUInt8).2 :=
  fun h => absurd (congrFun h 2) (by decide)

end Xv6.Lib
