/-
Null-terminated chains through a `next` pointer: `Seg next h l k` says that following `next` from
`h` visits exactly the list `l` and arrives at `k`, and `Chain next h l` that it then ends. A chain
is determined by its head, so it never visits a node twice, and the pointer loops of an intrusive
list (find the tail, find the predecessor, search, fold), which are given fuel here, all end within
the length of the chain.
-/
import Mathlib.Data.List.Nodup

namespace Base

variable {ι β : Type} {k : Option ι} {a : ι} {pre : List ι}

/-- Following `next` from `h` visits exactly `l` and arrives at `k`. -/
def Seg (next : ι → Option ι) : Option ι → List ι → Option ι → Prop
  | h, [], k => h = k
  | h, a :: l, k => h = some a ∧ Seg next (next a) l k

/-- Following `next` from `h` visits exactly `l` and ends. -/
def Chain (next : ι → Option ι) (h : Option ι) (l : List ι) : Prop := Seg next h l none

section

variable {next next' : ι → Option ι} {h : Option ι} {l : List ι} {p : ι}

@[simp] theorem seg_nil : Seg next h [] k ↔ h = k := Iff.rfl

@[simp] theorem seg_cons : Seg next h (a :: l) k ↔ h = some a ∧ Seg next (next a) l k := Iff.rfl

theorem seg_append : ∀ {h k : Option ι} (l m : List ι), Seg next h (l ++ m) k ↔ ∃ j, Seg next h l j ∧ Seg next j m k
  | _, _, [], m => by simp
  | _, _, a :: l, m => by simp [seg_append l m, and_assoc]

theorem Seg.congr : ∀ {h k : Option ι} {l : List ι}, (∀ a ∈ l, next' a = next a) → Seg next h l k → Seg next' h l k
  | _, _, [], _, hs => hs
  | _, _, a :: l, he, hs => by
    refine ⟨hs.1, ?_⟩
    rw [he a (.head _)]
    exact Seg.congr (fun b hb => he b (.tail _ hb)) hs.2

/-! ## Chains -/

@[simp] theorem chain_nil : Chain next h [] ↔ h = none := Iff.rfl

@[simp] theorem chain_cons : Chain next h (a :: l) ↔ h = some a ∧ Chain next (next a) l := Iff.rfl

theorem chain_none : Chain next none l ↔ l = [] := by
  cases l with
  | nil => simp
  | cons a l => simp

theorem Chain.unique : ∀ {h : Option ι} {l m : List ι}, Chain next h l → Chain next h m → l = m
  | _, [], [], _, _ => rfl
  | _, [], _ :: _, h1, h2 => by
    rw [chain_nil] at h1; subst h1; cases h2.1
  | _, _ :: _, [], h1, h2 => by
    rw [chain_nil] at h2; subst h2; cases h1.1
  | _, a :: l, b :: m, h1, h2 => by
    obtain ⟨h1, h1'⟩ := h1
    obtain ⟨h2, h2'⟩ := h2
    have hab : a = b := Option.some.inj (h1.symm.trans h2)
    subst hab
    rw [Chain.unique h1' h2']

/-- A chain visits no node twice: the second visit would start the same chain again. -/
theorem Chain.nodup : ∀ {h : Option ι} {l : List ι}, Chain next h l → l.Nodup
  | _, [], _ => List.nodup_nil
  | _, a :: l, hc => by
    refine List.nodup_cons.2 ⟨fun ha => ?_, Chain.nodup hc.2⟩
    obtain ⟨pre, post, rfl⟩ := List.append_of_mem ha
    obtain ⟨_, _, -, hp⟩ := (seg_append pre (a :: post)).1 hc.2
    have := congrArg List.length (Chain.unique hc.2 hp)
    simp at this
    omega

theorem Chain.congr (he : ∀ a ∈ l, next' a = next a) (hc : Chain next h l) : Chain next' h l := Seg.congr he hc

theorem Chain.snoc {z : ι} (hc : Chain next h (pre ++ [z])) (hz : next' z = some p) (hp : next' p = none)
    (he : ∀ a ∈ pre, next' a = next a) :
    Chain next' h (pre ++ [z] ++ [p]) := by
  obtain ⟨j, h1, h2⟩ := (seg_append pre [z]).1 hc
  refine (seg_append _ _).2 ⟨some p, (seg_append _ _).2 ⟨j, h1.congr he, h2.1, hz⟩, rfl, hp⟩

theorem Chain.tail [DecidableEq ι] (hc : Chain next (some p) l) (he : ∀ a, a ≠ p → next' a = next a) :
    Chain next' (next p) (l.erase p) := by
  rcases l with _ | ⟨a, l⟩
  · cases hc
  · have hnd := List.nodup_cons.1 hc.nodup
    obtain ⟨hp, hc⟩ := hc
    cases hp
    rw [List.erase_cons_head]
    refine hc.congr fun b hb => he b ?_
    rintro rfl
    exact hnd.1 hb

theorem Chain.unlink [DecidableEq ι] {post : List ι} {q : ι} (hc : Chain next h (pre ++ q :: p :: post))
    (hq : next' q = next p) (he : ∀ a, a ≠ q → a ≠ p → next' a = next a) :
    Chain next' h ((pre ++ q :: p :: post).erase p) := by
  obtain ⟨-, hnd, hdisj⟩ := List.nodup_append.1 hc.nodup
  obtain ⟨hqnot, hnd⟩ := List.nodup_cons.1 hnd
  obtain ⟨hpnot, -⟩ := List.nodup_cons.1 hnd
  have hqp : q ≠ p := by
    rintro rfl; exact hqnot (.head _)
  have hppre : p ∉ pre := fun hp => hdisj p hp p (by simp) rfl
  rw [List.erase_append_right _ hppre, List.erase_cons_tail (by simpa using hqp), List.erase_cons_head]
  obtain ⟨j, h1, hj, -, h2⟩ := (seg_append pre (q :: p :: post)).1 hc
  refine (seg_append _ _).2 ⟨j, h1.congr fun a ha => he a ?_ ?_, hj, ?_⟩
  · rintro rfl; exact hdisj a ha a (.head _) rfl
  · rintro rfl; exact hppre ha
  · rw [hq]
    refine Seg.congr (fun a ha => he a ?_ ?_) h2
    · rintro rfl; exact hqnot (.tail _ ha)
    · rintro rfl; exact hpnot ha

end

/-! ## Pointer loops -/

section

variable (next : ι → Option ι)

/-- `while (curr->next != 0) curr = curr->next;` -/
def lastFrom : Nat → ι → Option ι
  | 0, _ => none
  | k + 1, curr =>
    match next curr with
    | none => some curr
    | some q => lastFrom k q

/-- The node whose `next` is `p`, searched from `curr`; `some none` when the chain ends first. -/
def prevFrom [DecidableEq ι] (p : ι) : Nat → ι → Option (Option ι)
  | 0, _ => none
  | k + 1, curr =>
    match next curr with
    | none => some none
    | some q => if q = p then some (some curr) else prevFrom p k q

/-- The first node that passes `ok`; `some none` when the chain ends first. -/
def findFrom (ok : ι → Bool) : Nat → Option ι → Option (Option ι)
  | _, none => some none
  | 0, some _ => none
  | k + 1, some curr => if ok curr then some (some curr) else findFrom ok k (next curr)

/-- A fold over the nodes in chain order. -/
def foldFrom (f : β → ι → β) : Nat → β → Option ι → Option β
  | _, b, none => some b
  | 0, _, some _ => none
  | k + 1, b, some curr => foldFrom f k (f b curr) (next curr)

variable {next}

theorem lastFrom_chain : ∀ {fuel : Nat} {a z : ι} {pre : List ι}, Chain next (some a) (pre ++ [z]) →
    (pre ++ [z]).length ≤ fuel → lastFrom next fuel a = some z
  | 0, _, _, _, _, hl => by simp at hl
  | k + 1, a, z, [], hc, _ => by
    obtain ⟨h1, h2⟩ := hc
    cases h1
    rw [seg_nil] at h2
    simp [lastFrom, h2]
  | k + 1, a, z, b :: pre, hc, hl => by
    obtain ⟨h1, h2⟩ := hc
    cases h1
    rcases hn : next a with _ | q
    · rw [hn] at h2; cases pre <;> cases h2.1
    · rw [hn] at h2
      simp only [lastFrom, hn]
      exact lastFrom_chain h2 (by simpa using hl)

theorem prevFrom_chain [DecidableEq ι] : ∀ {fuel : Nat} {a q p : ι} {pre post : List ι},
    Chain next (some a) (pre ++ q :: p :: post) → (pre ++ q :: p :: post).length ≤ fuel →
    prevFrom next p fuel a = some (some q)
  | 0, _, _, _, _, _, _, hl => by simp at hl
  | k + 1, a, q, p, [], post, hc, _ => by
    obtain ⟨h1, h2, -⟩ := hc; cases h1; simp [prevFrom, h2]
  | k + 1, a, q, p, b :: pre, post, hc, hl => by
    have hnd := hc.nodup
    rw [List.cons_append] at hc
    obtain ⟨h1, h2⟩ := hc
    cases h1
    -- `p` is not the node right behind `a`: that one is the first of `pre ++ [q]`
    obtain ⟨x, t, hx, hxp⟩ : ∃ x t, pre ++ q :: p :: post = x :: t ∧ x ≠ p := by
      cases pre with
      | nil => exact ⟨q, p :: post, rfl, by rintro rfl; simp at hnd⟩
      | cons x pre => exact ⟨x, pre ++ q :: p :: post, rfl, by rintro rfl; simp at hnd⟩
    have hn : next a = some x := by
      rw [hx] at h2; exact h2.1
    rw [hn] at h2
    simp only [prevFrom, hn, if_neg hxp]
    exact prevFrom_chain h2 (by simpa using hl)

theorem findFrom_chain {ok : ι → Bool} : ∀ {fuel : Nat} {h : Option ι} {l : List ι}, Chain next h l →
    l.length ≤ fuel → findFrom next ok fuel h = some (l.find? ok)
  | k, _, [], hc, _ => by
    rw [chain_nil] at hc; subst hc
    cases k <;> rfl
  | 0, _, _ :: _, _, hl => by simp at hl
  | k + 1, _, a :: l, hc, hl => by
    obtain ⟨rfl, hc⟩ := hc
    simp only [findFrom, List.find?_cons]
    cases hok : ok a
    · simpa using findFrom_chain hc (by simpa using hl)
    · rfl

theorem foldFrom_chain {f : β → ι → β} : ∀ {fuel : Nat} {b : β} {h : Option ι} {l : List ι}, Chain next h l →
    l.length ≤ fuel → foldFrom next f fuel b h = some (l.foldl f b)
  | k, _, _, [], hc, _ => by
    rw [chain_nil] at hc; subst hc
    cases k <;> rfl
  | 0, _, _, _ :: _, _, hl => by simp at hl
  | k + 1, b, _, a :: l, hc, hl => by
    obtain ⟨rfl, hc⟩ := hc
    simp only [foldFrom, List.foldl_cons]
    exact foldFrom_chain hc (by simpa using hl)

end

end Base
