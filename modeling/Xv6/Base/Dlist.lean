/-
Circular doubly linked lists with a head, through `next` and `prev` pointers. `Path r x l y` says that
`next` leads from `x` through the nodes of `l` to `y` and `prev` back the same way; `Dlist r h l` is a
path from the head to itself through distinct nodes. Taking a node out and putting one in behind the
head, written as the pointer assignments of an intrusive list, do to the list what they should; searching forwards
or backwards, with fuel, is a search of the list.
-/
import Mathlib.Data.List.Nodup

namespace Base

open Function

variable {α : Type} {b h : α} {l l' : List α}

/-- The two pointers of every node. -/
structure Links (α : Type) where
  next : α → α
  prev : α → α

namespace Links

/-- The same list backwards. -/
def flip (r : Links α) : Links α := ⟨r.prev, r.next⟩

variable [DecidableEq α]

def setNext (r : Links α) (x y : α) : Links α := { r with next := update r.next x y }

def setPrev (r : Links α) (x y : α) : Links α := { r with prev := update r.prev x y }

/-- `b->next->prev = b->prev; b->prev->next = b->next`. -/
def unlink (r : Links α) (b : α) : Links α :=
  let r := r.setPrev (r.next b) (r.prev b)
  r.setNext (r.prev b) (r.next b)

/-- `b->next = h->next; b->prev = h; h->next->prev = b; h->next = b`. -/
def pushFront (r : Links α) (h b : α) : Links α :=
  let r := r.setNext b (r.next h)
  let r := r.setPrev b h
  let r := r.setPrev (r.next h) b
  r.setNext h b

end Links

/-- The first `k` nodes after `x`. -/
def follow (f : α → α) : Nat → α → List α
  | 0, _ => []
  | k + 1, x => f x :: follow f k (f x)

/-- The loop `for(x = ..; x != h; x = f(x)) if(p(x)) break`, of at most `k` rounds. -/
def search [DecidableEq α] (f : α → α) (h : α) (p : α → Bool) : Nat → α → Option α
  | 0, _ => none
  | k + 1, x => if x = h then none else if p x then some x else search f h p k (f x)

/-! ## Paths -/

/-- From `x` through `l` to `y`. -/
def Path (r : Links α) : α → List α → α → Prop
  | x, [], y => r.next x = y ∧ r.prev y = x
  | x, a :: l, y => (r.next x = a ∧ r.prev a = x) ∧ Path r a l y

variable {r : Links α}

namespace Path

variable {r' : Links α} {x y : α}

theorem append_cons : ∀ {x : α} (l : List α), Path r x (l ++ b :: l') y ↔ Path r x l b ∧ Path r b l' y
  | _, [] => Iff.rfl
  | _, a :: l => by
    show (_ ∧ _) ∧ Path r a (l ++ b :: l') y ↔ ((_ ∧ _) ∧ Path r a l b) ∧ _
    rw [append_cons l]
    exact and_assoc.symm

theorem congr : ∀ {x : α} {l : List α}, (∀ z ∈ x :: l, r'.next z = r.next z) → (∀ z ∈ l ++ [y], r'.prev z = r.prev z) →
    Path r x l y → Path r' x l y
  | x, [], hn, hp, h => by
    rw [Path, hn x (.head _), hp y (by simp)]; exact h
  | x, a :: l, hn, hp, h => by
    refine ⟨?_, congr (fun z hz => hn z (.tail _ hz)) (fun z hz => hp z (.tail _ hz)) h.2⟩
    rw [hn x (.head _), hp a (.head _)]
    exact h.1

theorem next_mem (h : Path r x l y) : r.next x ∈ l ++ [y] := by
  cases l with
  | nil => rw [h.1]; exact .head _
  | cons a l => rw [h.1.1]; exact .head _

theorem prev_mem : ∀ {x : α} {l : List α}, Path r x l y → r.prev y ∈ x :: l
  | x, [], h => by
    rw [h.2]; exact .head _
  | x, a :: l, h => .tail _ (prev_mem h.2)

theorem reverse : ∀ {x : α} (l : List α), Path r x l y → Path r.flip y l.reverse x
  | _, [], h => ⟨h.2, h.1⟩
  | x, a :: l, h => by
    rw [List.reverse_cons, append_cons]; exact ⟨reverse l h.2, h.1.2, h.1.1⟩

theorem follow_eq : ∀ {x : α} (l : List α), Path r x l y → follow r.next (l.length + 1) x = l ++ [y]
  | x, [], h => by
    rw [show ([] : List α).length + 1 = 0 + 1 from rfl, follow, h.1]; rfl
  | x, a :: l, h => by
    rw [List.length_cons, follow, h.1.1, follow_eq l h.2]; rfl

variable [DecidableEq α]

theorem search_eq {p : α → Bool} : ∀ {x : α} (l : List α), Path r x l h → h ∉ l →
    search r.next h p (l.length + 1) (r.next x) = l.find? p
  | x, [], hp, _ => by
    rw [hp.1]; exact if_pos rfl
  | x, a :: l, hp, hn => by
    have ha : a ≠ h := fun heq => hn (heq ▸ List.mem_cons_self ..)
    rw [hp.1.1, List.length_cons, search, if_neg ha, List.find?_cons]
    cases p a with
    | true => rfl
    | false => exact search_eq l hp.2 fun hm => hn (.tail _ hm)

@[simp] theorem unlink_next (r : Links α) (b : α) :
    (r.unlink b).next = update r.next (update r.prev (r.next b) (r.prev b) b) (r.next b) := rfl

@[simp] theorem unlink_prev (r : Links α) (b : α) : (r.unlink b).prev = update r.prev (r.next b) (r.prev b) := rfl

theorem unlink : ∀ {x : α} (l : List α), (x :: (l ++ b :: l')).Nodup → (l ++ b :: l' ++ [y]).Nodup →
    Path r x (l ++ b :: l') y → Path (r.unlink b) x (l ++ l') y
  | x, [], hs, ht, h => by
    obtain ⟨⟨hxb, hbx⟩, h⟩ := h
    -- the node before `b` is `x`; `b` does not point to itself
    have hnb : r.next b ≠ b := fun heq => by
      have hm := h.next_mem; rw [heq] at hm; exact (List.nodup_cons.1 ht).1 hm
    have hprev : update r.prev (r.next b) (r.prev b) b = x := by rw [update_of_ne hnb.symm, hbx]
    cases l' with
    | nil =>
      refine ⟨?_, ?_⟩
      · rw [unlink_next, hprev, update_self, h.1]
      · rw [unlink_prev, h.1, update_self, hbx]
    | cons c l' =>
      obtain ⟨⟨hbc, -⟩, h⟩ := h
      have hx : x ∉ c :: l' := fun hm => (List.nodup_cons.1 hs).1 (.tail _ hm)
      have hc : c ∉ l' ++ [y] := (List.nodup_cons.1 (List.nodup_cons.1 ht).2).1
      refine ⟨⟨?_, ?_⟩, h.congr (fun z hz => ?_) fun z hz => ?_⟩
      · rw [unlink_next, hprev, update_self, hbc]
      · rw [unlink_prev, hbc, update_self, hbx]
      · rw [unlink_next, hprev, update_of_ne (ne_of_mem_of_not_mem hz hx)]
      · rw [unlink_prev, hbc, update_of_ne (ne_of_mem_of_not_mem hz hc)]
  | x, a :: l, hs, ht, h => by
    rw [List.cons_append] at hs h
    rw [List.cons_append, List.cons_append] at ht
    obtain ⟨⟨hxa, hax⟩, h⟩ := h
    obtain ⟨hx, hs⟩ := List.nodup_cons.1 hs
    obtain ⟨ha, ht⟩ := List.nodup_cons.1 ht
    obtain ⟨h1, h2⟩ := (append_cons l).1 h
    -- what `b` points to is behind it, and what points to `b` is not `x`
    have hnb : r.next b ∈ l' ++ [y] := h2.next_mem
    have hpb : r.prev b ∈ a :: l := h1.prev_mem
    have hbb : b ≠ r.next b := fun heq => by
      rw [List.append_assoc] at ht
      have hnd := (List.nodup_append.1 ht).2.1
      exact (List.nodup_cons.1 hnd).1 (heq ▸ hnb)
    refine ⟨⟨?_, ?_⟩, unlink l hs ht h⟩
    · rw [unlink_next, update_of_ne hbb, update_of_ne, hxa]
      intro heq
      apply hx
      rw [heq, ← List.cons_append]
      exact List.mem_append_left _ hpb
    · rw [unlink_prev, update_of_ne, hax]
      intro heq
      apply ha
      rw [heq, List.append_assoc]
      exact List.mem_append_right _ (.tail _ hnb)

end Path

/-! ## Lists -/

/-- A list of distinct nodes from the head `h` around to it. -/
structure Dlist (r : Links α) (h : α) (l : List α) : Prop where
  path : Path r h l h
  nodup : (h :: l).Nodup

namespace Dlist

theorem flip (hr : Dlist r h l) : Dlist r.flip h l.reverse := by
  refine ⟨hr.path.reverse l, ?_⟩
  have hn := List.nodup_cons.1 hr.nodup
  exact List.nodup_cons.2 ⟨by simpa using hn.1, by simpa using hn.2⟩

theorem empty (h : α) : Dlist ⟨fun _ => h, fun _ => h⟩ h [] := ⟨⟨rfl, rfl⟩, List.nodup_singleton h⟩

theorem follow_next (hr : Dlist r h l) : follow r.next (l.length + 1) h = l ++ [h] := hr.path.follow_eq l

theorem follow_prev (hr : Dlist r h l) : follow r.prev (l.length + 1) h = l.reverse ++ [h] := by
  have := hr.flip.path.follow_eq l.reverse; rwa [List.length_reverse] at this

variable [DecidableEq α]

theorem unlink (hr : Dlist r h (l ++ b :: l')) : Dlist (r.unlink b) h (l ++ l') := by
  have hn := List.nodup_cons.1 hr.nodup
  refine ⟨Path.unlink l hr.nodup ?_ hr.path, ?_⟩
  · refine List.nodup_append.2 ⟨hn.2, List.nodup_singleton h, fun z hz w hw => ?_⟩
    rw [List.mem_singleton.1 hw]
    exact fun heq => hn.1 (heq ▸ hz)
  · refine hr.nodup.sublist (List.Sublist.cons_cons h ?_)
    exact List.Sublist.append_left (List.sublist_cons_self b l') l

theorem pushFront (hr : Dlist r h l) (hb : b ∉ h :: l) : Dlist (r.pushFront h b) h (b :: l) := by
  have hbh : b ≠ h := fun heq => hb (heq ▸ List.mem_cons_self ..)
  have hbl : b ∉ l := fun hm => hb (.tail _ hm)
  have hn := List.nodup_cons.1 hr.nodup
  have hnext : (r.pushFront h b).next = update (update r.next b (r.next h)) h b := rfl
  have hprev : (r.pushFront h b).prev = update (update r.prev b h) (r.next h) b := by
    show update (update r.prev b h) (update r.next b (r.next h) h) b = _
    rw [update_of_ne hbh.symm]
  have hnb : r.next h ≠ b := fun heq => by
    have hm := hr.path.next_mem
    rw [heq, List.mem_append] at hm
    rcases hm with hm | hm
    · exact hbl hm
    · exact hbh (List.mem_singleton.1 hm)
  refine ⟨⟨⟨?_, ?_⟩, ?_⟩, ?_⟩
  · rw [hnext, update_self]
  · rw [hprev, update_of_ne hnb.symm, update_self]
  · have hpath := hr.path
    cases l with
    | nil =>
      refine ⟨?_, ?_⟩
      · rw [hnext, update_of_ne hbh, update_self, hpath.1]
      · rw [hprev, hpath.1, update_self]
    | cons c l =>
      obtain ⟨⟨hhc, -⟩, hpath⟩ := hpath
      have hc := List.nodup_cons.1 hn.2
      refine ⟨⟨?_, ?_⟩, hpath.congr (fun z hz => ?_) fun z hz => ?_⟩
      · rw [hnext, update_of_ne hbh, update_self, hhc]
      · rw [hprev, hhc, update_self]
      · rw [hnext, update_of_ne (ne_of_mem_of_not_mem hz hn.1), update_of_ne (ne_of_mem_of_not_mem hz hbl)]
      · rw [hprev, hhc]
        rcases List.mem_append.1 hz with hz | hz
        · rw [update_of_ne (ne_of_mem_of_not_mem hz hc.1),
            update_of_ne (ne_of_mem_of_not_mem (List.mem_cons_of_mem c hz) hbl)]
        · rw [List.mem_singleton.1 hz, update_of_ne (ne_of_mem_of_not_mem (List.mem_cons_self ..) hn.1).symm,
            update_of_ne hbh.symm]
  · refine List.nodup_cons.2 ⟨fun hm => ?_, List.nodup_cons.2 ⟨hbl, hn.2⟩⟩
    rcases List.mem_cons.1 hm with heq | hm
    · exact hbh heq.symm
    · exact hn.1 hm

theorem moveFront (hr : Dlist r h (l ++ b :: l')) : Dlist ((r.unlink b).pushFront h b) h (b :: (l ++ l')) := by
  have hn := List.nodup_cons.1 hr.nodup
  refine hr.unlink.pushFront fun hm => ?_
  rcases List.mem_cons.1 hm with heq | hm
  · exact hn.1 (heq ▸ List.mem_append_right _ (.head _))
  · exact (List.nodup_cons.1 (List.nodup_middle.1 hn.2)).1 hm

theorem search_next (hr : Dlist r h l) (p : α → Bool) : search r.next h p (l.length + 1) (r.next h) = l.find? p :=
  hr.path.search_eq l (List.nodup_cons.1 hr.nodup).1

theorem search_prev (hr : Dlist r h l) (p : α → Bool) :
    search r.prev h p (l.length + 1) (r.prev h) = l.reverse.find? p := by
  have := hr.flip.search_next p
  rwa [List.length_reverse] at this

end Dlist

end Base
