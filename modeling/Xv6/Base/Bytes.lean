/-
Memory as a function from addresses to bytes. `paste` copies a run of bytes into it and `slice` reads from
an address on, so that reading a region, changing it and writing it back is one `paste` in the whole.
`getLE` and `putLE` are little-endian numbers of `k` bytes: what is put is got back, and a number depends
only on its own bytes; `add32` is their sum where they have four.
-/
import Mathlib.Algebra.Order.Ring.Nat

namespace Base

/-- `src` copied to the `k` bytes from `o` on. -/
def paste (b : Nat → UInt8) (o k : Nat) (src : Nat → UInt8) : Nat → UInt8 :=
  fun a => if o ≤ a ∧ a < o + k then src (a - o) else b a

def slice (b : Nat → UInt8) (o : Nat) : Nat → UInt8 := fun i => b (o + i)

/-- The bytes of a list, and zeros behind it. -/
def ofList (l : List UInt8) : Nat → UInt8 := fun i => l.getD i 0

variable {a : Nat}

theorem ofList_eq {l : List UInt8} (h : a < l.length) : ofList l a = l[a] := by
  rw [ofList, List.getD_eq_getElem?_getD, List.getElem?_eq_getElem h, Option.getD_some]

/-- Zeros at the end are what is behind the end. -/
theorem ofList_append_zeros (l : List UInt8) (m a : Nat) : ofList (l ++ List.replicate m 0) a = ofList l a := by
  rw [ofList, ofList, List.getD_eq_getElem?_getD, List.getD_eq_getElem?_getD, List.getElem?_append]
  split
  · rfl
  · next h =>
    rw [List.getElem?_eq_none (not_lt.1 h), List.getElem?_replicate]
    split <;> rfl

/-- The `k` bytes from `o` on. -/
def toList (b : Nat → UInt8) (o k : Nat) : List UInt8 := (List.range k).map fun j => b (o + j)

theorem length_toList (b : Nat → UInt8) (o k : Nat) : (toList b o k).length = k := by
  rw [toList, List.length_map, List.length_range]

variable {b : Nat → UInt8} {k o p : Nat} {j : Nat} {b' src : Nat → UInt8} {o' n : Nat}

theorem getElem_toList (h : j < (toList b o k).length) : (toList b o k)[j] = b (o + j) := by
  simp only [toList, List.getElem_map, List.getElem_range]

theorem toList_congr (h : ∀ j < k, b (o + j) = b' (o' + j)) : toList b o k = toList b' o' k :=
  List.map_congr_left fun j hj => h j (List.mem_range.1 hj)

theorem toList_add (b : Nat → UInt8) (o m k : Nat) : toList b o (m + k) = toList b o m ++ toList b (o + m) k := by
  rw [toList, List.range_add, List.map_append, List.map_map, toList, toList]
  simp only [Function.comp_def, add_assoc]

theorem flatten_piece {α : Type} : ∀ (L : List (List α)), (∀ l ∈ L, l.length = n) → ∀ (k : Nat) (h : k < L.length),
    (L.flatten.drop (n * k)).take n = L[k] := by
  intro L
  induction L with
  | nil => exact fun _ k h => absurd h not_lt_zero
  | cons l L ih =>
    intro hL k h
    have hl := hL l List.mem_cons_self
    cases k with
    | zero => exact List.take_left' hl
    | succ k =>
      rw [List.flatten_cons, Nat.mul_succ, add_comm, ← List.drop_drop, List.drop_left' hl, List.getElem_cons_succ]
      exact ih (fun l hm => hL l (.tail _ hm)) k (Nat.lt_of_succ_lt_succ h)

section

theorem paste_in (h1 : o ≤ a) (h2 : a < o + k) : paste b o k src a = src (a - o) := if_pos ⟨h1, h2⟩

theorem paste_out (h : a < o ∨ o + k ≤ a) : paste b o k src a = b a :=
  if_neg fun hin => by omega

theorem paste_add (h : a < k) : paste b o k src (o + a) = src a := by
  rw [paste_in (Nat.le_add_right o a) (by omega), Nat.add_sub_cancel_left]

variable {src' : Nat → UInt8}

/-- A change within a region that is then written, as a change of what is written. -/
theorem paste_paste {d : Nat → UInt8} (h : p + k ≤ n) :
    paste b o n (paste d p k src) = paste (paste b o n d) (o + p) k src := by
  funext a
  by_cases h1 : o ≤ a ∧ a < o + n
  · rw [paste_in h1.1 h1.2]
    by_cases h2 : o + p ≤ a ∧ a < o + p + k
    · rw [paste_in (by omega) (by omega), paste_in h2.1 h2.2, Nat.sub_sub]
    · rw [paste_out (by omega), paste_out (by omega), paste_in h1.1 h1.2]
  · rw [paste_out (by omega), paste_out (by omega), paste_out (by omega)]

theorem paste_self (n : Nat) : paste b o n (slice b o) = b := by
  funext a
  by_cases h : o ≤ a ∧ a < o + n
  · rw [paste_in h.1 h.2, slice, Nat.add_sub_cancel' h.1]
  · exact paste_out (by omega)

theorem paste_slice (h : p + k ≤ n) : paste b o n (paste (slice b o) p k src) = paste b (o + p) k src := by
  rw [paste_paste h, paste_self]

/-- A window that is pasted in two parts, at one place of it. -/
theorem paste_step {src'' : Nat → UInt8} (hk : k ≤ n) (hb : b' a = paste b o k src' a) (h1 : ∀ j < k, src' j = src j)
    (h2 : k = n ∨ o' = o + k ∧ ∀ j, src'' j = src (k + j)) :
    paste b' o' (n - k) src'' a = paste b o n src a := by
  by_cases hin : o + k ≤ a ∧ a < o + n
  · obtain ⟨rfl, hsrc⟩ := h2.resolve_left (by omega)
    rw [paste_in hin.1 (by omega), paste_in (by omega) hin.2, hsrc, show k + (a - (o + k)) = a - o by omega]
  · rw [paste_out (by omega), hb]
    by_cases hfirst : o ≤ a ∧ a < o + k
    · rw [paste_in hfirst.1 hfirst.2, paste_in hfirst.1 (by omega), h1 _ (by omega)]
    · rw [paste_out (by omega), paste_out (by omega)]

theorem paste_comm {k' : Nat} (h : o + k ≤ o' ∨ o' + k' ≤ o) :
    paste (paste b o k src) o' k' src' = paste (paste b o' k' src') o k src := by
  funext a
  by_cases h1 : o ≤ a ∧ a < o + k
  · rw [paste_out (by omega), paste_in h1.1 h1.2, paste_in h1.1 h1.2]
  · by_cases h2 : o' ≤ a ∧ a < o' + k'
    · rw [paste_in h2.1 h2.2, paste_out (by omega), paste_in h2.1 h2.2]
    · rw [paste_out (by omega), paste_out (by omega), paste_out (by omega), paste_out (by omega)]

theorem paste_again : paste (paste b o k src) o k src' = paste b o k src' := by
  funext a
  by_cases h : o ≤ a ∧ a < o + k
  · rw [paste_in h.1 h.2, paste_in h.1 h.2]
  · rw [paste_out (by omega), paste_out (by omega), paste_out (by omega)]

end

/-! ## Little-endian numbers -/

/-- The number in the `k` bytes from `o` on. -/
def getLE (b : Nat → UInt8) (o : Nat) : Nat → Nat
  | 0 => 0
  | k + 1 => (b o).toNat + 256 * getLE b (o + 1) k

/-- The bytes of a number, least first. -/
def bytesLE (v : Nat) : Nat → UInt8 := fun i => UInt8.ofNat (v / 256 ^ i)

/-- `v` in the `k` bytes from `o` on. -/
def putLE (b : Nat → UInt8) (o k v : Nat) : Nat → UInt8 := paste b o k (bytesLE v)

theorem getLE_congr (h : ∀ a, o ≤ a → a < o + k → b a = b' a) : getLE b o k = getLE b' o k := by
  induction k generalizing o with
  | zero => rfl
  | succ k ih => rw [getLE, getLE, h o (le_refl o) (by omega), ih fun a h1 h2 => h a (by omega) (by omega)]

theorem getLE_lt (b : Nat → UInt8) (o k : Nat) : getLE b o k < 256 ^ k := by
  induction k generalizing o with
  | zero => exact one_pos
  | succ k ih =>
    have h1 := ih (o + 1)
    have h2 := (b o).toNat_lt
    rw [getLE, pow_succ]
    omega

theorem getLE_slice (b : Nat → UInt8) (o p k : Nat) : getLE (slice b o) p k = getLE b (o + p) k := by
  induction k generalizing p with
  | zero => rfl
  | succ k ih => rw [getLE, getLE, ih, slice, add_assoc]

theorem getLE_zero (h : ∀ a, o ≤ a → a < o + k → b a = 0) : getLE b o k = 0 := by
  induction k generalizing o with
  | zero => rfl
  | succ k ih => rw [getLE, h o (le_refl o) (by omega), ih fun a h1 h2 => h a (by omega) (by omega)]; rfl

theorem getLE_bytesLE (v k : Nat) : getLE (bytesLE v) 0 k = v % 256 ^ k := by
  have h : ∀ o, getLE (bytesLE v) o k = v / 256 ^ o % 256 ^ k := by
    induction k with
    | zero => intro o; rw [getLE, pow_zero, Nat.mod_one]
    | succ k ih =>
      intro o
      rw [getLE, ih, pow_succ 256 o, ← Nat.div_div_eq_div_mul, pow_succ', Nat.mod_mul]
      rfl
  rw [h 0, pow_zero, Nat.div_one]

theorem getLE_paste (h : p + j ≤ k) : getLE (paste b o k src) (o + p) j = getLE src p j := by
  rw [← getLE_slice]; exact getLE_congr fun a h1 h2 => paste_add (by omega)

theorem getLE_paste_out (h : p + j ≤ o ∨ o + k ≤ p) : getLE (paste b o k src) p j = getLE b p j :=
  getLE_congr fun a h1 h2 => paste_out (by omega)

theorem getLE_putLE (b : Nat → UInt8) (o k v : Nat) : getLE (putLE b o k v) o k = v % 256 ^ k :=
  calc getLE (putLE b o k v) o k
      = getLE (bytesLE v) 0 k := getLE_paste (p := 0) (le_of_eq (zero_add k))
    _ = v % 256 ^ k := getLE_bytesLE v k

theorem getLE_putLE_out {v : Nat} (h : p + j ≤ o ∨ o + k ≤ p) :
    getLE (putLE b o k v) p j = getLE b p j := getLE_paste_out h

theorem bytesLE_getLE (h : a < k) : bytesLE (getLE b o k) a = b (o + a) := by
  induction k generalizing o a with
  | zero => exact absurd h not_lt_zero
  | succ k ih =>
    have hb := (b o).toNat_lt
    cases a with
    | zero =>
      show bytesLE (getLE b o (k + 1)) 0 = b o
      rw [bytesLE, getLE, pow_zero, Nat.div_one, ← UInt8.toNat_inj, UInt8.toNat_ofNat']
      omega
    | succ a =>
      rw [bytesLE, getLE, pow_succ', ← Nat.div_div_eq_div_mul, Nat.add_mul_div_left _ _ (by decide),
        Nat.div_eq_of_lt hb, zero_add]
      have := ih (o := o + 1) (Nat.lt_of_succ_lt_succ h)
      rw [bytesLE, add_assoc, add_comm 1] at this
      exact this

theorem putLE_getLE (b : Nat → UInt8) (o k : Nat) : putLE b o k (getLE b o k) = b := by
  funext a
  rw [putLE]
  by_cases h : o ≤ a ∧ a < o + k
  · rw [paste_in h.1 h.2, bytesLE_getLE (by omega), Nat.add_sub_cancel' h.1]
  · exact paste_out (by omega)

/-- The sum of two `uint`s. -/
def add32 (a b : Nat) : Nat := (a + b) % 2 ^ 32

theorem add32_eq {b : Nat} (h : a + b < 2 ^ 32) : add32 a b = a + b := Nat.mod_eq_of_lt h

theorem add32_lt_iff {b : Nat} (ha : a < 2 ^ 32) (hb : b < 2 ^ 32) : add32 a b < a ↔ 2 ^ 32 ≤ a + b := by
  unfold add32; omega

end Base
