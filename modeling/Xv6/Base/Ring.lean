/-
Ring arrays. `window b a n` lists the `n` cells of the array `b` from index `a` on, every index taken
modulo the length of the array. Two windows that follow each other append, a window does not change
when an index outside it is written, writing an index inside it writes one element of the list, and
writing the index just behind a window that does not fill the array extends it.

`Fifo` is the use of such an array as a queue by two counters that only grow, modulo a number that
the length of the array divides: what has gone in is what has come out and then the window between.
-/
import Mathlib.Algebra.GroupWithZero.Nat
import Mathlib.Logic.Function.Basic

namespace Base.Ring

open Function

variable {α : Type} {m : Nat} [NeZero m] {i j : Nat} {b : Fin m → α}

def place (m : Nat) [NeZero m] (i : Nat) : Fin m := ⟨i % m, Nat.mod_lt i (Nat.pos_of_neZero m)⟩

/-- The `n` cells from index `a` on. -/
def window (b : Fin m → α) (a n : Nat) : List α := (List.range n).map fun i => b (place m (a + i))

theorem place_congr (h : i % m = j % m) : place m i = place m j := Fin.ext h

theorem place_ne (h1 : i < j) (h2 : j < i + m) : place m i ≠ place m j := by
  intro h
  have h : i % m = j % m := Fin.mk.inj_iff.1 h
  have hd : (j - i) % m = 0 := Nat.sub_mod_eq_zero_of_mod_eq h.symm
  rw [Nat.mod_eq_of_lt (by omega)] at hd
  omega

@[simp] theorem length_window (b : Fin m → α) (a n : Nat) : (window b a n).length = n := by simp [window]

theorem getElem?_window (b : Fin m → α) (a n i : Nat) :
    (window b a n)[i]? = if i < n then some (b (place m (a + i))) else none := by
  unfold window
  split
  · rename_i h; simp [h]
  · rename_i h; simp [Nat.le_of_not_lt h]

theorem window_eq {b' : Fin m → α} {a a' n : Nat} (h : ∀ i < n, b (place m (a + i)) = b' (place m (a' + i))) :
    window b a n = window b' a' n := by
  unfold window
  refine List.map_congr_left fun i hi => ?_
  exact h i (List.mem_range.1 hi)

theorem window_congr (b : Fin m → α) {a a' : Nat} (n : Nat) (h : a % m = a' % m) : window b a n = window b a' n := by
  refine window_eq fun i _ => ?_
  rw [place_congr (i := a + i) (j := a' + i)]
  rw [Nat.add_mod, h, ← Nat.add_mod]

theorem window_add (b : Fin m → α) (a k n : Nat) : window b a (k + n) = window b a k ++ window b (a + k) n := by
  unfold window
  rw [List.range_add, List.map_append, List.map_map]
  congr 1
  refine List.map_congr_left fun i _ => ?_
  simp [add_assoc]

theorem window_cons (b : Fin m → α) (a n : Nat) : window b a (n + 1) = b (place m a) :: window b (a + 1) n := by
  rw [add_comm n 1, window_add]; rfl

theorem window_update (b : Fin m → α) {a n j : Nat} (c : α) (h1 : a + n ≤ j) (h2 : j < a + m) :
    window (update b (place m j) c) a n = window b a n := by
  refine window_eq fun i hi => ?_
  exact update_of_ne (place_ne (by omega) (by omega)) ..

theorem window_push (b : Fin m → α) (a n : Nat) (c : α) (h : n < m) :
    window (update b (place m (a + n)) c) a (n + 1) = window b a n ++ [c] := by
  rw [window_add, window_update b c (Nat.le_refl _) (by omega)]
  congr 1
  simp [window]

theorem window_set (b : Fin m → α) (a : Nat) {n i : Nat} (c : α) (hi : i < n) (hn : n ≤ m) :
    window (update b (place m (a + i)) c) a n = (window b a n).set i c := by
  apply List.ext_getElem?
  intro j
  rw [List.getElem?_set, getElem?_window, getElem?_window, length_window]
  by_cases hij : i = j
  · subst hij; rw [if_pos hi, if_pos rfl, if_pos hi, update_self]
  · rw [if_neg hij]
    by_cases hj : j < n
    · rw [if_pos hj, if_pos hj, update_of_ne]
      rcases Nat.lt_or_gt_of_ne hij with hlt | hgt
      · exact (place_ne (by omega) (by omega)).symm
      · exact place_ne (by omega) (by omega)
    · rw [if_neg hj, if_neg hj]

/-! ## Free-running counters -/

/-- A queue in the array `b` with counters `r` and `w` modulo `M`, from which `taken` has come out
and into which `stored` has gone. -/
structure Fifo (M : Nat) (b : Fin m → α) (r w : Nat) (taken stored : List α) : Prop where
  read : r = taken.length % M
  write : w = stored.length % M
  room : stored.length ≤ taken.length + m
  queue : stored = taken ++ window b taken.length (stored.length - taken.length)

namespace Fifo

variable {M : Nat} {r w : Nat} {taken stored : List α}

theorem start (M : Nat) (b : Fin m → α) : Fifo M b 0 0 [] [] := by
  constructor
  · rw [List.length_nil, Nat.zero_mod]
  · rw [List.length_nil, Nat.zero_mod]
  · exact Nat.zero_le _
  · rfl

/-- What comes out is the beginning of what has gone in. -/
theorem isPrefix (h : Fifo M b r w taken stored) : taken <+: stored := ⟨_, h.queue.symm⟩

theorem length_le (h : Fifo M b r w taken stored) : taken.length ≤ stored.length := h.isPrefix.length_le

theorem mod_inj (hij : i ≤ j) (hlt : j < i + M) (h : i % M = j % M) : i = j := by
  have hd : (j - i) % M = 0 := Nat.sub_mod_eq_zero_of_mod_eq h.symm
  rw [Nat.mod_eq_of_lt (by omega)] at hd
  omega

section

variable (h : Fifo M b r w taken stored)

include h

theorem empty_iff (hM : m < M) : r = w ↔ taken.length = stored.length := by
  have hle := h.length_le
  have hroom := h.room
  rw [h.read, h.write]
  constructor
  · intro heq; exact mod_inj hle (by omega) heq
  · intro heq; rw [heq]

theorem full_iff (hM : m < M) :
    w = (r + m) % M ↔ stored.length = taken.length + m := by
  have hle := h.length_le
  have hroom := h.room
  rw [h.read, h.write, Nat.mod_add_mod]
  constructor
  · intro heq; exact mod_inj hroom (by omega) heq
  · intro heq; rw [heq]

theorem diff (hM : m < M) : (w + (M - r)) % M = stored.length - taken.length := by
  have hle := h.length_le
  have hroom := h.room
  have hr : taken.length % M < M := Nat.mod_lt _ (by omega)
  have hsum : stored.length + (M - taken.length % M) =
      (stored.length - taken.length) + M * (taken.length / M + 1) := by
    have := Nat.div_add_mod taken.length M
    rw [Nat.mul_succ]
    omega
  rw [h.read, h.write, Nat.mod_add_mod, hsum, Nat.add_mul_mod_self_left, Nat.mod_eq_of_lt (by omega)]

theorem push (hm : m ∣ M) (hroom : stored.length < taken.length + m) (c : α) :
    Fifo M (update b (place m w) c) r ((w + 1) % M) taken (stored ++ [c]) := by
  have hle := h.length_le
  obtain ⟨k, hk⟩ := Nat.exists_eq_add_of_le hle
  have hplace : place m w = place m (taken.length + k) := by
    apply place_congr; rw [h.write, hk, Nat.mod_mod_of_dvd _ hm]
  constructor
  · exact h.read
  · rw [h.write, Nat.mod_add_mod, List.length_append, List.length_singleton]
  · rw [List.length_append, List.length_singleton]; omega
  · have hq := h.queue
    have hlen : (stored ++ [c]).length - taken.length = k + 1 := by
      rw [List.length_append, List.length_singleton]; omega
    rw [hlen, hplace, window_push b _ k c (by omega), ← List.append_assoc]
    rw [show stored.length - taken.length = k by omega] at hq
    rw [← hq]

theorem pop (hm : m ∣ M) (hne : taken.length < stored.length) :
    Fifo M b ((r + 1) % M) w (taken ++ [b (place m r)]) stored := by
  have hplace : place m r = place m taken.length := by
    apply place_congr; rw [h.read, Nat.mod_mod_of_dvd _ hm]
  have hroom := h.room
  constructor
  · rw [h.read, Nat.mod_add_mod, List.length_append, List.length_singleton]
  · exact h.write
  · rw [List.length_append, List.length_singleton]; omega
  · have hq := h.queue
    rw [show stored.length - taken.length = stored.length - (taken ++ [b (place m r)]).length + 1 by
      rw [List.length_append, List.length_singleton]; omega, window_cons] at hq
    rw [hplace, List.append_assoc, List.singleton_append, List.length_append, List.length_singleton]
    rw [List.length_append, List.length_singleton] at hq
    exact hq

end

end Fifo

end Base.Ring
