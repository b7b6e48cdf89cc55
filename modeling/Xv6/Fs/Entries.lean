/-
The entries of a directory as a list: the scan of `dirlookup` finds the first live entry of a name, `dirlink` writes
to the first free entry or behind the last, and an unlinked entry is empty.
-/
import Xv6.Fs.Disk

namespace Xv6.Fs

open Function

/-! ## The entries there are -/

variable {e : Dirent} {name : Name} {k : Nat} {i : Inum}

theorem mem_putEnt {x : Dirent} : ∀ {es : List Dirent}, x ∈ putEnt e es → x = e ∨ x ∈ es
  | [], h => .inl (List.mem_singleton.1 h)
  | y :: ys, h => by
    unfold putEnt at h
    split at h
    · exact (List.mem_cons.1 h).imp_right fun hx => List.mem_cons_of_mem y hx
    · rcases List.mem_cons.1 h with rfl | h
      · exact .inr (.head _)
      · exact (mem_putEnt h).imp_right fun hx => List.mem_cons_of_mem y hx

/-- `dirlink` writes at the first free entry, or makes the directory longer by one. -/
theorem putEnt_eq (e : Dirent) : ∀ es : List Dirent, putEnt e es =
    if es.findIdx (fun e => e.inum = 0) < es.length then es.set (es.findIdx fun e => e.inum = 0) e else es ++ [e]
  | [] => rfl
  | x :: xs => by
    unfold putEnt
    rw [List.findIdx_cons]
    by_cases hx : x.inum = 0
    · simp [hx]
    · rw [if_neg hx, putEnt_eq e xs]
      simp only [hx, decide_false, cond_false, List.length_cons, Nat.add_lt_add_iff_right, List.set_cons_succ]
      split <;> rfl

/-! ## The entry found -/

theorem findEnt_get : ∀ {es : List Dirent} {off : Nat}, findEnt name es off = some (k, i) →
      ∃ e, off ≤ k ∧ es[k - off]? = some e ∧ e.inum = i ∧ i ≠ 0 ∧ e.name = name
  | [], off, h => by cases h
  | e :: es, off, h => by
    unfold findEnt at h
    split at h
    · rename_i he; cases h; exact ⟨e, le_rfl, by simp, rfl, he.1, he.2⟩
    · obtain ⟨x, hle, hx, hi⟩ := findEnt_get h
      refine ⟨x, by omega, ?_, hi⟩
      have hk : k - off = (k - (off + 1)) + 1 := by omega
      rw [hk, List.getElem?_cons_succ]
      exact hx

theorem findEnt_mem : ∀ {es : List Dirent} {off : Nat}, findEnt name es off = some (k, i) →
      ∃ e ∈ es, e.inum = i ∧ e.inum ≠ 0 ∧ e.name = name
  | [], off, h => by cases h
  | e :: es, off, h => by
    unfold findEnt at h
    split at h
    · cases h; exact ⟨e, List.mem_cons_self .., rfl, ‹_›⟩
    · obtain ⟨e', he, h'⟩ := findEnt_mem h; exact ⟨e', List.mem_cons_of_mem e he, h'⟩

theorem findEnt_eq_none : ∀ {es : List Dirent} (off : Nat),
    findEnt name es off = none ↔ ∀ e ∈ es, e.inum ≠ 0 → e.name ≠ name
  | [], _ => iff_of_true rfl fun _ h => (List.not_mem_nil h).elim
  | e :: es, off => by
    rw [List.forall_mem_cons, ← findEnt_eq_none (off + 1), findEnt]
    by_cases he : e.inum ≠ 0 ∧ e.name = name
    · rw [if_pos he]; exact iff_of_false (fun h => by cases h) fun h => h.1 he.1 he.2
    · rw [if_neg he]; exact ⟨fun h => ⟨fun h0 hn => he ⟨h0, hn⟩, h⟩, fun h => h.2⟩

theorem findEnt_putEnt_ne (hne : name ≠ e.name) :
    ∀ (es : List Dirent) (off : Nat), findEnt name (putEnt e es) off = findEnt name es off
  | [], off => by simp [putEnt, findEnt, Ne.symm hne]
  | x :: xs, off => by
    unfold putEnt
    split
    · rename_i hx; simp [findEnt, hx, Ne.symm hne]
    · simp only [findEnt]; rw [findEnt_putEnt_ne hne xs]

theorem findEnt_putEnt_self (he : e.inum ≠ 0) :
    ∀ (es : List Dirent) (off : Nat), findEnt e.name es off = none →
      ∃ k, findEnt e.name (putEnt e es) off = some (k, e.inum)
  | [], off, _ => ⟨off, by simp [putEnt, findEnt, he]⟩
  | x :: xs, off, h => by
    unfold findEnt at h
    split at h
    · cases h
    · rename_i hx
      unfold putEnt
      split
      · exact ⟨off, by simp [findEnt, he]⟩
      · obtain ⟨k, hk⟩ := findEnt_putEnt_self he xs (off + 1) h
        refine ⟨k, ?_⟩
        unfold findEnt
        rw [if_neg hx]
        exact hk

theorem findEnt_set_ne : ∀ {es : List Dirent} {k off : Nat}, (∀ e, es[k]? = some e → e.name ≠ name) →
    findEnt name (es.set k {}) off = findEnt name es off
  | [], _, _, _ => rfl
  | e :: es, 0, off, h => by
    rw [List.set_cons_zero, findEnt, findEnt, if_neg fun h0 => h0.1 rfl, if_neg fun he => h e rfl he.2]
  | e :: es, k + 1, off, h => by
    rw [List.set_cons_succ, findEnt, findEnt,
      findEnt_set_ne (k := k) fun x hx => h x (by rwa [List.getElem?_cons_succ])]

/-! ## The map of names -/

/-- No two live entries have one name. -/
def Distinct (es : List Dirent) : Prop := es.Pairwise fun a b => a.inum ≠ 0 → b.inum ≠ 0 → a.name ≠ b.name

/-- What the entries say of a name. -/
def binding (es : List Dirent) (name : Name) : Option Inum := (findEnt name es 0).map Prod.snd

section

variable {es : List Dirent}

theorem Distinct.findEnt_eq (h : Distinct es) : ∀ {k : Nat} (off : Nat), es[k]? = some e → e.inum ≠ 0 →
    findEnt e.name es off = some (off + k, e.inum) := by
  unfold Distinct at h
  induction h with
  | nil => exact fun _ hk _ => by cases hk
  | @cons x es hx _ ih =>
    intro k off hk h0
    cases k with
    | zero => obtain rfl := Option.some.inj hk; exact if_pos ⟨h0, rfl⟩
    | succ k =>
      have hk : es[k]? = some e := hk
      rw [findEnt, if_neg fun hc => hx e (List.mem_of_getElem? hk) hc.1 h0 hc.2, ih (off + 1) hk h0,
        add_assoc, add_comm 1]

theorem Distinct.putEnt (h : Distinct es) (hn : findEnt e.name es 0 = none) : Distinct (putEnt e es) := by
  rw [findEnt_eq_none] at hn
  unfold Distinct at h ⊢
  induction h with
  | nil => exact List.pairwise_singleton _ _
  | @cons x es hx h ih =>
    obtain ⟨hxe, hes⟩ := List.forall_mem_cons.1 hn
    rw [Fs.putEnt]
    split
    · exact List.pairwise_cons.2 ⟨fun y hy _ hy0 he => hes y hy hy0 he.symm, h⟩
    · refine List.pairwise_cons.2 ⟨fun y hy => ?_, ih hes⟩
      rcases mem_putEnt hy with rfl | hy
      · exact fun hx0 _ => hxe hx0
      · exact hx y hy

theorem Distinct.clear (h : Distinct es) : ∀ k : Nat, Distinct (es.set k {}) := by
  unfold Distinct at h ⊢
  induction h with
  | nil => exact fun _ => .nil
  | @cons x es hx h ih =>
    intro k
    cases k with
    | zero => exact List.pairwise_cons.2 ⟨fun y _ h0 => (h0 rfl).elim, h⟩
    | succ k =>
      refine List.pairwise_cons.2 ⟨fun y hy => ?_, ih k⟩
      rcases List.mem_or_eq_of_mem_set hy with hy | rfl
      · exact hx y hy
      · exact fun _ h0 => (h0 rfl).elim

theorem binding_putEnt (h0 : e.inum ≠ 0) (hn : findEnt e.name es 0 = none) :
    binding (putEnt e es) = update (binding es) e.name (some e.inum) := by
  funext name
  by_cases hne : name = e.name
  · obtain ⟨k, hk⟩ := findEnt_putEnt_self h0 es 0 hn
    rw [hne, update_self, binding, hk]
    rfl
  · rw [update_of_ne hne, binding, findEnt_putEnt_ne hne]; rfl

theorem Distinct.binding_clear (h : Distinct es) {name : Name} {k : Nat} {i : Inum}
    (hf : findEnt name es 0 = some (k, i)) :
    binding (es.set k {}) = update (binding es) name none := by
  obtain ⟨e, -, hk, -, -, rfl⟩ := findEnt_get hf
  rw [Nat.sub_zero] at hk
  funext name
  by_cases hne : name = e.name
  · -- another live entry of this name would be at the same place
    have hnone : findEnt e.name (es.set k {}) 0 = none := by
      refine (findEnt_eq_none 0).2 fun x hx hx0 hxe => ?_
      obtain ⟨j, hj⟩ := List.getElem?_of_mem hx
      rw [List.getElem?_set] at hj
      split at hj
      · split at hj
        · cases hj; exact hx0 rfl
        · cases hj
      · rename_i hkj
        have hfx := h.findEnt_eq 0 hj hx0
        rw [hxe, hf] at hfx
        simp only [Option.some.injEq, Prod.mk.injEq] at hfx
        omega
    rw [hne, update_self, binding, hnone]
    rfl
  · rw [update_of_ne hne, binding, findEnt_set_ne fun x hx => ?_]
    · rfl
    · rw [hk] at hx; obtain rfl := Option.some.inj hx; exact fun he => hne he.symm

end

end Xv6.Fs
