/-
Counting pointers. `pointers h k` is how many of the slots `h` point to `k`; changing one slot changes
the count of what it pointed to and of what it points to now, and no other.
-/
import Mathlib.Data.Fintype.Prod

namespace Base

open Function

variable {ι κ : Type} [Fintype ι] [DecidableEq κ]

/-- How many slots point to `k`. -/
def pointers (h : ι → Option κ) (k : κ) : Nat := (Finset.univ.filter fun i => h i = some k).card

variable {h : ι → Option κ} {k : κ}

theorem pointers_pos : 0 < pointers h k ↔ ∃ i, h i = some k := by
  rw [pointers, Finset.card_pos]
  constructor
  · rintro ⟨i, hi⟩; exact ⟨i, (Finset.mem_filter.1 hi).2⟩
  · rintro ⟨i, hi⟩; exact ⟨i, Finset.mem_filter.2 ⟨Finset.mem_univ i, hi⟩⟩

theorem pointers_eq_zero : pointers h k = 0 ↔ ∀ i, h i ≠ some k := by
  rw [← not_iff_not, ← Ne, ← Nat.pos_iff_ne_zero, pointers_pos]; simp only [not_forall, not_not]

theorem exists_ne_of_pointers {i : ι} (hi : h i = some k) (hne : pointers h k ≠ 1) : ∃ j, j ≠ i ∧ h j = some k := by
  by_contra hno
  push Not at hno
  refine hne (Finset.card_eq_one.2 ⟨i, Finset.eq_singleton_iff_unique_mem.2 ⟨?_, fun j hj => ?_⟩⟩)
  · exact Finset.mem_filter.2 ⟨Finset.mem_univ i, hi⟩
  · by_contra hji
    exact hno j hji (Finset.mem_filter.1 hj).2

variable [DecidableEq ι]

theorem pointers_update (h : ι → Option κ) (i : ι) (o : Option κ) (k : κ) :
    pointers (update h i o) k + (if h i = some k then 1 else 0) = pointers h k + if o = some k then 1 else 0 := by
  have hrest : ∀ g : ι → Option κ,
      pointers g k = ((Finset.univ.erase i).filter fun j => g j = some k).card + if g i =
        some k then 1 else 0 := fun g => by
    have hsplit : pointers g k = ((insert i (Finset.univ.erase i)).filter fun j => g j = some k).card := by
      rw [Finset.insert_erase (Finset.mem_univ i)]; rfl
    rw [hsplit, Finset.filter_insert]
    split
    · rw [Finset.card_insert_of_notMem (by simp)]
    · rfl
  have hsame : ((Finset.univ.erase i).filter fun j => update h i o j = some k) =
      (Finset.univ.erase i).filter fun j => h j = some k := by
    apply Finset.filter_congr
    intro j hj
    rw [update_of_ne (Finset.ne_of_mem_erase hj)]
  rw [hrest h, hrest (update h i o), hsame, update_self]
  omega

end Base
