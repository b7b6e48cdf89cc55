/-
Who refers to what in the inode cache: the count of an entry is the number of holders that point to it, no
inode has two entries, a locked entry and one that a process is about to lock are pointed to, and a pointer
that is being given up is used by nobody else. `Refs.step` keeps all of this, whatever is in the entries.
-/
import Xv6.Cache.Inode

namespace Xv6.Icache

open Base Fs
open Function (update update_of_ne)

variable {n : Nat} {P R : Type} {s s' : State n P R} {e : Fin n} {p : P} {r : R} {b : Nat}

/-! ## Updates -/

section

variable {e' : Fin n}

@[simp] theorem modEnt_self (f : Inode → Inode) : (s.modEnt e f).ent e = f (s.ent e) := by simp [State.modEnt]

theorem modEnt_of_ne (h : e' ≠ e) (f : Inode → Inode) : (s.modEnt e f).ent e' = s.ent e' := by simp [State.modEnt, h]

theorem modEnt_eq {β : Type} (π : Inode → β) {f : Inode → Inode} (h : π (f (s.ent e)) = π (s.ent e)) (e' : Fin n) :
    π ((s.modEnt e f).ent e') = π (s.ent e') := by
  by_cases he : e' = e
  · rw [he, modEnt_self, h]
  · rw [modEnt_of_ne he]

@[simp] theorem setLock_self (o : Option (P × R)) : (s.setLock e o).lock e = o := by simp [State.setLock]

theorem setLock_of_ne (h : e' ≠ e) (o : Option (P × R)) : (s.setLock e o).lock e' = s.lock e' := by
  simp [State.setLock, h]

@[simp] theorem setPtr_ent [DecidableEq R] (r : R) (o : Option (Fin n)) : (s.setPtr r o).ent = s.ent := rfl

@[simp] theorem setPtr_ptr [DecidableEq R] (r : R) (o : Option (Fin n)) : (s.setPtr r o).ptr = update s.ptr r o := rfl

@[simp] theorem iupdate_ent : (s.iupdate e).ent = s.ent := rfl

theorem holds_iff : s.holds p e ↔ ∃ r, s.lock e = some (p, r) := by
  simp [State.holds]

theorem Pc.on_of_puts {x : Pc n R} (h : x.puts = some r) : ∃ e k, x = .put r e k := by
  cases x with
  | put r' e k => exact ⟨e, k, by cases h; rfl⟩
  | _ => cases h

variable [DecidableEq P]

@[simp] theorem goto_ent (p : P) (x : Pc n R) : (s.goto p x).ent = s.ent := rfl

@[simp] theorem goto_self (p : P) (x : Pc n R) : (s.goto p x).pc p = x := by simp [State.goto]

theorem goto_of_ne {q : P} (h : q ≠ p) (x : Pc n R) : (s.goto p x).pc q = s.pc q := by simp [State.goto, h]

theorem goto_goto (p : P) (x y : Pc n R) : (s.goto p x).goto p y = s.goto p y := by simp [State.goto]

end

theorem scan_eq (ent : Fin n → Inode) (k : Key) : ∀ (es : List (Fin n)) (empty : Option (Fin n)),
    (∃ e ∈ es, scan ent k es empty = .inl e ∧ 0 < (ent e).ref ∧ (ent e).key = k) ∨
      (∀ e ∈ es, ¬ (0 < (ent e).ref ∧ (ent e).key = k)) ∧
        ∃ o, scan ent k es empty = .inr o ∧ ∀ e, o = some e → empty = some e ∨ e ∈ es ∧ (ent e).ref = 0
  | [], empty => .inr ⟨fun e he => absurd he List.not_mem_nil, empty, rfl, fun e he => .inl he⟩
  | e :: es, empty => by
    unfold scan
    split
    · rename_i hit; exact .inl ⟨e, .head _, rfl, hit⟩
    · rename_i miss
      rcases scan_eq ent k es (if empty = none ∧ (ent e).ref = 0 then some e else empty) with
        ⟨x, hx, hs, hit⟩ | ⟨hno, o, hs, ho⟩
      · exact .inl ⟨x, .tail _ hx, hs, hit⟩
      · refine .inr ⟨List.forall_mem_cons.2 ⟨miss, hno⟩, o, hs, fun x hx => ?_⟩
        rcases ho x hx with hx | ⟨hx, href⟩
        · split at hx
          · rename_i hemp; cases hx; exact .inr ⟨.head _, hemp.2⟩
          · exact .inl hx
        · exact .inr ⟨.tail _ hx, href⟩

/-- `iget` takes the entry of the inode, or gives it one that is not in use. -/
theorem iget_cases [DecidableEq R] {k : Key} (hs : iget s r k = some s') :
    (∃ e, 0 < (s.ent e).ref ∧ s' = (s.modEnt e fun x => { x with ref := x.ref + 1 }).setPtr r (some e)) ∨
    ∃ e, (s.ent e).ref = 0 ∧ (∀ e', 0 < (s.ent e').ref → (s.ent e').key ≠ k) ∧
      s' = (s.modEnt e fun x => { x with key := k, ref := 1, valid := false }).setPtr r (some e) := by
  unfold iget at hs
  rcases scan_eq s.ent k (List.finRange n) none with ⟨e, -, hscan, hpos, -⟩ | ⟨hno, o, hscan, ho⟩
  · rw [hscan] at hs; exact .inl ⟨e, hpos, (Option.some.inj hs).symm⟩
  · rw [hscan] at hs
    cases o with
    | none => cases hs
    | some e =>
      have href : (s.ent e).ref = 0 := ((ho e rfl).resolve_left (by simp)).2
      exact .inr ⟨e, href, fun e' hpos hk => hno e' (List.mem_finRange e') ⟨hpos, hk⟩, (Option.some.inj hs).symm⟩

/-! ## References -/

/-- Who refers to what. -/
structure Refs [Fintype R] (s : State n P R) : Prop where
  count : ∀ e, (s.ent e).ref = pointers s.ptr e
  uniq : ∀ e e', 0 < (s.ent e).ref → 0 < (s.ent e').ref → (s.ent e).key = (s.ent e').key → e = e'
  on : ∀ p r e, (s.pc p).on = some (r, e) → s.ptr r = some e
  inside : ∀ p e, (s.pc p).inside = some e → ∃ r, s.lock e = some (p, r)
  lock : ∀ e p r, s.lock e = some (p, r) → s.ptr r = some e
  alone : ∀ p r e k, s.pc p = .put r e k → (∀ q e', (s.pc q).on = some (r, e') → q = p) ∧
    ∀ e' q, s.lock e' = some (q, r) → q = p ∧ k ≠ .drop

namespace Refs

variable [Fintype R] {k : Stage}

theorem pos (h : Refs s) (hr : s.ptr r = some e) : 0 < (s.ent e).ref := by
  rw [h.count e]; exact pointers_pos.2 ⟨r, hr⟩

theorem congr (h : Refs s) (href : ∀ e, (s'.ent e).ref = (s.ent e).ref) (hkey : ∀ e, (s'.ent e).key = (s.ent e).key)
    (hptr : s'.ptr = s.ptr) (hlock : s'.lock = s.lock) (hpc : s'.pc = s.pc) : Refs s' := by
  refine ⟨fun e => ?_, fun e e' he he' hk => ?_, ?_, ?_, ?_, ?_⟩
  · rw [href, hptr]; exact h.count e
  · rw [href] at he he'; rw [hkey, hkey] at hk; exact h.uniq e e' he he' hk
  · rw [hptr, hpc]; exact h.on
  · rw [hlock, hpc]; exact h.inside
  · rw [hptr, hlock]; exact h.lock
  · rw [hlock, hpc]; exact h.alone

theorem modEnt (h : Refs s) {f : Inode → Inode} (href : (f (s.ent e)).ref = (s.ent e).ref)
    (hkey : (f (s.ent e)).key = (s.ent e).key) : Refs (s.modEnt e f) :=
  h.congr (modEnt_eq Inode.ref href) (modEnt_eq Inode.key hkey) rfl rfl rfl

theorem iupdate (h : Refs s) : Refs (s.iupdate e) := h.congr (fun _ => rfl) (fun _ => rfl) rfl rfl rfl

theorem acquire (h : Refs s) (hfree : s.lock e = none) (hon : (s.pc p).on = some (r, e))
    (hk : s.pc p ≠ .put r e .drop) :
    Refs (s.setLock e (some (p, r))) := by
  refine ⟨h.count, h.uniq, h.on, fun q x hq => ?_, fun x q r' hx => ?_,
    fun q r' x k hq => ⟨(h.alone q r' x k hq).1, ?_⟩⟩
  · obtain ⟨r', hr'⟩ := h.inside q x hq
    have hne : x ≠ e := by
      rintro rfl; rw [hfree] at hr'; cases hr'
    exact ⟨r', by rw [setLock_of_ne hne, hr']⟩
  · by_cases hxe : x = e
    · rw [hxe, setLock_self] at hx
      cases hx
      rw [hxe]
      exact h.on p r e hon
    · rw [setLock_of_ne hxe] at hx; exact h.lock x q r' hx
  · intro y q' hy
    replace hq : s.pc q = .put r' x k := hq
    by_cases hye : y = e
    · rw [hye, setLock_self] at hy
      cases hy
      have hpq : p = q := (h.alone q r x k hq).1 p e hon
      refine ⟨hpq, ?_⟩
      rintro rfl
      have hx : x = e := by
        have := h.on q r x (by rw [hq]; rfl)
        rw [h.on p r e hon] at this
        exact (Option.some.inj this).symm
      rw [hpq, hq, hx] at hk
      exact hk rfl
    · rw [setLock_of_ne hye] at hy; exact (h.alone q r' x k hq).2 y q' hy

theorem unlock (h : Refs s) (hno : ∀ q, (s.pc q).inside ≠ some e) : Refs (s.setLock e none) := by
  have hlock : ∀ {x : Fin n} {y : P × R}, (s.setLock e none).lock x = some y → s.lock x = some y := fun {x y} hx => by
    by_cases hxe : x = e
    · rw [hxe, setLock_self] at hx; cases hx
    · rwa [setLock_of_ne hxe] at hx
  refine ⟨h.count, h.uniq, h.on, fun q x hq => ?_, fun x q r hx => h.lock x q r (hlock hx),
    fun q r x k hq => ⟨(h.alone q r x k hq).1, fun y q' hy => (h.alone q r x k hq).2 y q' (hlock hy)⟩⟩
  have hne : x ≠ e := by
    rintro rfl; exact hno q hq
  rw [setLock_of_ne hne]
  exact h.inside q x hq

section

variable [DecidableEq R]

theorem giveBack (h : Refs s) (hr : s.ptr r = some e) (hon : ∀ q e', (s.pc q).on ≠ some (r, e'))
    (hlock : ∀ e' q, s.lock e' ≠ some (q, r)) :
    Refs ((s.modEnt e fun x => { x with ref := x.ref - 1 }).setPtr r none) := by
  have hpos := h.pos hr
  have href : ∀ e', ((s.modEnt e fun x => { x with ref := x.ref - 1 }).ent e').ref + (if e' = e then 1 else 0) =
      (s.ent e').ref := fun e' => by
    by_cases he : e' = e
    · rw [he, modEnt_self, if_pos rfl]; exact Nat.sub_add_cancel hpos
    · rw [modEnt_of_ne he, if_neg he]; rfl
  refine ⟨fun e' => ?_, fun e1 e2 h1 h2 hk => ?_, fun q r' e' hq => ?_, h.inside, fun e' q r' hl => ?_, h.alone⟩
  · have hu := pointers_update s.ptr r none e'
    have hc := h.count e'
    have hr' := href e'
    simp only [hr, Option.some.injEq, reduceCtorEq, if_false, eq_comm (a := e)] at hu
    rw [setPtr_ent, setPtr_ptr]
    show _ = pointers (update s.ptr r none) e'
    omega
  · have hr1 := href e1
    have hr2 := href e2
    refine h.uniq e1 e2 (h1.trans_le (by rw [← hr1]; exact le_self_add))
      (h2.trans_le (by rw [← hr2]; exact le_self_add)) ?_
    rwa [setPtr_ent, modEnt_eq Inode.key rfl e1, modEnt_eq Inode.key rfl e2] at hk
  · show update s.ptr r none r' = some e'
    have hne : r' ≠ r := fun heq => hon q e' (heq ▸ hq)
    rw [update_of_ne hne]
    exact h.on q r' e' hq
  · show update s.ptr r none r' = some e'
    have hne : r' ≠ r := fun heq => hlock e' q (heq ▸ hl)
    rw [update_of_ne hne]
    exact h.lock e' q r' hl

/-- A holder gets a reference to entry `e`, which no other entry is a duplicate of. -/
theorem take (h : Refs s) (hr : s.ptr r = none) {f : Inode → Inode} (href : (f (s.ent e)).ref = (s.ent e).ref + 1)
    (hkey : ∀ e', e' ≠ e → 0 < (s.ent e').ref → (s.ent e').key ≠ (f (s.ent e)).key) :
    Refs ((s.modEnt e f).setPtr r (some e)) := by
  have hne : ∀ {r' e'}, s.ptr r' = some e' → r' ≠ r := by
    rintro r' e' hr' rfl; rw [hr] at hr'; cases hr'
  have hkeep : ∀ {r' e'}, s.ptr r' = some e' → update s.ptr r (some e) r' = some e' := fun hr' => by
    rw [update_of_ne (hne hr'), hr']
  refine ⟨fun e' => ?_, fun e1 e2 h1 h2 hk => ?_, fun q r' e' hq => hkeep (h.on q r' e' hq), h.inside,
    fun e' q r' hl => hkeep (h.lock e' q r' hl), h.alone⟩
  · have hu := pointers_update s.ptr r (some e) e'
    have hc := h.count e'
    simp only [hr, Option.some.injEq, reduceCtorEq, if_false, eq_comm (a := e)] at hu
    rw [setPtr_ent, setPtr_ptr]
    show _ = pointers (update s.ptr r (some e)) e'
    by_cases he : e' = e
    · rw [he] at hu hc ⊢
      rw [modEnt_self, href]
      simp only [if_true] at hu
      omega
    · rw [modEnt_of_ne he]; simp only [he, if_false] at hu; omega
  · rw [setPtr_ent] at h1 h2 hk
    by_cases he1 : e1 = e
    · by_cases he2 : e2 = e
      · rw [he1, he2]
      · rw [modEnt_of_ne he2] at h2 hk
        rw [he1, modEnt_self] at hk
        exact absurd hk.symm (hkey e2 he2 h2)
    · rw [modEnt_of_ne he1] at h1 hk
      by_cases he2 : e2 = e
      · rw [he2, modEnt_self] at hk; exact absurd hk (hkey e1 he1 h1)
      · rw [modEnt_of_ne he2] at h2 hk; exact h.uniq e1 e2 h1 h2 hk

theorem again (h : Refs s) (hr : s.ptr r = none) (hpos : 0 < (s.ent e).ref) :
    Refs ((s.modEnt e fun x => { x with ref := x.ref + 1 }).setPtr r (some e)) :=
  h.take hr rfl fun e' hne hpos' hk => hne (h.uniq e' e hpos' hpos hk)

theorem iget (h : Refs s) (hr : s.ptr r = none) {k : Key} (hs : Icache.iget s r k = some s') : Refs s' := by
  rcases iget_cases hs with ⟨e, hpos, rfl⟩ | ⟨e, href, hno, rfl⟩
  · exact h.again hr hpos
  · exact h.take hr (by rw [href]) fun e' _ => hno e'

end

variable [DecidableEq P]

theorem goto (h : Refs s) {x : Pc n R}
    (hon : ∀ r e, x.on = some (r, e) → s.ptr r = some e ∧ ∀ q, q ≠ p → (s.pc q).puts ≠ some r)
    (hin : ∀ e, x.inside = some e → ∃ r, s.lock e = some (p, r))
    (hput : ∀ r e k, x = .put r e k → (∀ q e', q ≠ p → (s.pc q).on ≠ some (r, e')) ∧
      ∀ e' q, s.lock e' = some (q, r) → q = p ∧ k ≠ .drop) : Refs (s.goto p x) := by
  refine ⟨h.count, h.uniq, fun q r e hq => ?_, fun q e hq => ?_, h.lock, fun q r e k hq => ?_⟩
  · by_cases hqp : q = p
    · rw [hqp, goto_self] at hq; exact (hon r e hq).1
    · rw [goto_of_ne hqp] at hq; exact h.on q r e hq
  · by_cases hqp : q = p
    · rw [hqp, goto_self] at hq; rw [hqp]; exact hin e hq
    · rw [goto_of_ne hqp] at hq; exact h.inside q e hq
  · by_cases hqp : q = p
    · rw [hqp, goto_self] at hq
      rw [hqp]
      obtain ⟨halone, hlock⟩ := hput r e k hq
      refine ⟨fun q' e' hq' => ?_, hlock⟩
      by_contra hne
      rw [goto_of_ne hne] at hq'
      exact halone q' e' hne hq'
    · rw [goto_of_ne hqp] at hq
      obtain ⟨halone, hlock⟩ := h.alone q r e k hq
      refine ⟨fun q' e' hq' => ?_, hlock⟩
      by_cases hqp' : q' = p
      · rw [hqp', goto_self] at hq'; exact absurd (by rw [hq]; rfl) ((hon r e' hq').2 q hqp)
      · rw [goto_of_ne hqp'] at hq'; exact halone q' e' hq'

/-- A process that has passed no pointer on: it is between calls, or works on an entry it has locked. -/
theorem goto_plain (h : Refs s) {x : Pc n R} (hon : x.on = none)
    (hin : ∀ e, x.inside = some e → ∃ r, s.lock e = some (p, r)) :
    Refs (s.goto p x) := by
  refine h.goto (fun r e hx => ?_) hin fun r e k hx => ?_
  · rw [hon] at hx; cases hx
  · rw [hx] at hon; cases hon

theorem stage (h : Refs s) (hp : s.pc p = .put r e k) {k' : Stage} (hin : ∃ r', s.lock e = some (p, r'))
    (hk' : k' ≠ .drop) :
    Refs (s.goto p (.put r e k')) := by
  have hon : (s.pc p).on = some (r, e) := by rw [hp]; rfl
  obtain ⟨halone, hlock⟩ := h.alone p r e k hp
  refine h.goto (fun r' e' hx => ?_) (fun e' hx => ?_) fun r' e' k'' hx => ?_
  · cases hx
    refine ⟨h.on p r e hon, fun q hq hput => ?_⟩
    obtain ⟨e', k', hput⟩ := Pc.on_of_puts hput
    exact hq (halone q e' (by rw [hput]; rfl))
  · have he : e' = e := by
      simp only [Pc.inside] at hx
      split at hx
      · cases hx
      · exact (Option.some.inj hx).symm
    rw [he]
    exact hin
  · cases hx
    exact ⟨fun q e' hq hon => hq (halone q e' hon), fun e' q hl => ⟨(hlock e' q hl).1, hk'⟩⟩

theorem release (h : Refs s) (hp : s.pc p = .put r e .release) : Refs ((s.setLock e none).goto p (.put r e .drop)) := by
  -- through a state in which the process has the lock and is at `acquire`, where it does not work under it
  obtain ⟨r', hr'⟩ := h.inside p e (by rw [hp]; rfl)
  have h1 : Refs (s.goto p (.put r e .acquire)) := h.stage hp ⟨r', hr'⟩ (by decide)
  have h2 : Refs ((s.goto p (.put r e .acquire)).setLock e none) := by
    refine h1.unlock fun q hq => ?_
    obtain ⟨r'', hq'⟩ := h1.inside q e hq
    have hqp : q = p := (Prod.mk.inj (Option.some.inj (hq'.symm.trans hr'))).1
    rw [hqp, goto_self] at hq
    cases hq
  rw [← goto_goto p (.put r e .acquire)]
  have hpc : ((s.goto p (.put r e .acquire)).setLock e none).pc p = .put r e .acquire := goto_self p _
  have hptr : s.ptr r = some e := h.on p r e (by rw [hp]; rfl)
  refine h2.goto (fun r' e' hx => ?_) (fun e' hx => ?_) fun r' e' k hx => ?_
  · cases hx
    refine ⟨hptr, fun q hq hput => ?_⟩
    obtain ⟨e', k', hput⟩ := Pc.on_of_puts hput
    exact hq ((h2.alone p r e _ hpc).1 q e' (by rw [hput]; rfl))
  · cases hx
  · cases hx
    refine ⟨fun q e' hq hon => hq ((h2.alone p r e _ hpc).1 q e' hon), fun e' q hl => ?_⟩
    -- a lock taken by this pointer could only be the one given back
    have he : e' = e := by
      have := h2.lock e' q r hl; exact Option.some.inj (this.symm.trans hptr)
    rw [he, setLock_self] at hl
    cases hl

theorem copyNext {c : Copy} (h : Refs s) (hp : s.pc p = .copy e c) (hs : Icache.copyNext s p e c b = some s') :
    Refs s' := by
  have hin : ∃ r, s.lock e = some (p, r) := h.inside p e (by rw [hp]; rfl)
  unfold Icache.copyNext at hs
  split at hs
  · obtain ⟨d, -, hs⟩ := Option.bind_eq_some_iff.1 hs
    cases hs
    exact (h.modEnt rfl rfl).goto_plain rfl fun e' he' => by cases he'; exact hin
  · split at hs
    · cases hs; exact (h.modEnt rfl rfl).goto_plain rfl fun e' he' => by cases he'; exact hin
    · cases hs; exact h.goto_plain rfl fun e' he' => by cases he'

variable [DecidableEq R]

theorem drop (h : Refs s) (hp : s.pc p = .put r e .drop) :
    Refs (((s.modEnt e fun x => { x with ref := x.ref - 1 }).setPtr r none).goto p .idle) := by
  have hptr : s.ptr r = some e := h.on p r e (by rw [hp]; rfl)
  obtain ⟨halone, hnolock⟩ := h.alone p r e .drop hp
  have hidle : Refs (s.goto p .idle) := h.goto_plain rfl fun e' he' => by cases he'
  refine hidle.giveBack hptr (fun q e' hq => ?_) fun e' q hl => (hnolock e' q hl).2 rfl
  by_cases hqp : q = p
  · rw [hqp, goto_self] at hq; cases hq
  · rw [goto_of_ne hqp] at hq; exact hqp (halone q e' hq)

theorem iputNext (h : Refs s) (hp : s.pc p = .put r e k) (hs : Icache.iputNext s p r e k = some s') : Refs s' := by
  cases k with
  | acquire =>
    obtain ⟨hfree, ⟨⟩⟩ := Option.ite_none_right_eq_some.1 hs
    have hlock := h.acquire hfree (p := p) (r := r) (by rw [hp]; rfl) (by rw [hp]; simp)
    exact hlock.stage hp ⟨r, setLock_self _⟩ (by decide)
  | test | count =>
    cases hs; exact h.stage hp (h.inside p e (by rw [hp]; rfl)) (by split <;> decide)
  | trunc =>
    cases hs
    have hmod : Refs (s.modEnt e fun x => { x with di := itrunc x.di }) := h.modEnt rfl rfl
    exact (hmod.iupdate (e := e)).stage hp (h.inside p e (by rw [hp]; rfl)) (by decide)
  | free =>
    cases hs
    have hmod : Refs (s.modEnt e fun x => { x with di := { x.di with type := .free } }) := h.modEnt rfl rfl
    have hup : Refs (((s.modEnt e fun x => { x with di := { x.di with type := .free } }).iupdate e).goto p
        (.put r e .clear)) :=
      hmod.iupdate.stage hp (h.inside p e (by rw [hp]; rfl)) (by decide)
    exact hup.congr (fun _ => rfl) (fun _ => rfl) rfl rfl rfl
  | clear =>
    cases hs; exact (h.modEnt rfl rfl).stage hp (h.inside p e (by rw [hp]; rfl)) (by decide)
  | release => cases hs; exact h.release hp
  | drop => cases hs; exact h.drop hp

theorem next (h : Refs s) (hs : Icache.next s p b = some s') : Refs s' := by
  unfold Icache.next at hs
  cases hp : s.pc p with
  | idle => rw [hp] at hs; cases hs
  | lock r e =>
    rw [hp] at hs
    obtain ⟨hfree, ⟨⟩⟩ := Option.ite_none_right_eq_some.1 hs
    have hon : (s.pc p).on = some (r, e) := by rw [hp]; rfl
    refine (h.acquire hfree hon (by rw [hp]; simp)).goto (fun r' e' hx => ?_) (fun e' hx => ?_) fun r' e' k hx => ?_
    · cases hx
      refine ⟨h.on p r e hon, fun q hq hput => ?_⟩
      obtain ⟨e', k, hput⟩ := Pc.on_of_puts hput
      exact hq ((h.alone q r e' k hput).1 p e hon).symm
    · cases hx; exact ⟨r, setLock_self _⟩
    · cases hx
  | load r e =>
    rw [hp] at hs
    dsimp only at hs
    split at hs
    · cases hs; exact h.goto_plain rfl fun e' he' => by cases he'
    · split at hs
      · cases hs
      · cases hs; exact (h.modEnt rfl rfl).goto_plain rfl fun e' he' => by cases he'
  | update e =>
    rw [hp] at hs
    cases hs
    exact (h.iupdate (e := e)).goto_plain rfl fun e' he' => by cases he'
  | copy e c => rw [hp] at hs; exact h.copyNext hp hs
  | put r e k => rw [hp] at hs; exact h.iputNext hp hs

theorem step [Fintype P] {a : Act n P R} (h : Refs s) (hs : Icache.step s a = some s') : Refs s' := by
  cases a with
  | iget p r k => obtain ⟨⟨-, hr⟩, hs⟩ := Option.ite_none_right_eq_some.1 hs; exact h.iget hr hs
  | idup p r r' =>
    simp only [Icache.step] at hs
    split at hs
    · rename_i e hr
      obtain ⟨⟨-, hr', -⟩, ⟨⟩⟩ := Option.ite_none_right_eq_some.1 hs
      exact h.again hr' (h.pos hr)
    · cases hs
  | ilock p r =>
    simp only [Icache.step] at hs
    split at hs
    · rename_i e hr
      obtain ⟨⟨hidle, hkept, -⟩, ⟨⟩⟩ := Option.ite_none_right_eq_some.1 hs
      refine h.goto (fun r' e' hx => ?_) (fun e' hx => ?_) fun r' e' k hx => ?_
      · cases hx; exact ⟨hr, fun q _ => hkept q⟩
      · cases hx
      · cases hx
    · cases hs
  | iput p r =>
    simp only [Icache.step] at hs
    split at hs
    · rename_i e hr
      obtain ⟨⟨hidle, hon, hlock⟩, ⟨⟩⟩ := Option.ite_none_right_eq_some.1 hs
      refine h.goto (fun r' e' hx => ?_) (fun e' hx => ?_) fun r' e' k hx => ?_
      · cases hx
        refine ⟨hr, fun q _ hput => ?_⟩
        obtain ⟨e', k, hput⟩ := Pc.on_of_puts hput
        exact hon q (by rw [hput]; rfl)
      · cases hx
      · cases hx
        exact ⟨fun q e' _ hq => hon q (by rw [hq]; rfl), fun e' q hl => absurd (by rw [hl]; rfl) (hlock e')⟩
    · cases hs
  | next p b => obtain ⟨-, hs⟩ := Option.ite_none_right_eq_some.1 hs; exact h.next hs
  | change p e c =>
    obtain ⟨⟨-, hold⟩, ⟨⟩⟩ := Option.ite_none_right_eq_some.1 hs
    exact (h.modEnt rfl rfl).goto_plain rfl fun e' he' => by cases he'; exact holds_iff.1 hold
  | readi p e off m | writei p e off m =>
    obtain ⟨⟨-, hold, -⟩, hs⟩ := Option.ite_none_right_eq_some.1 hs
    split at hs
    · cases hs; exact h
    · cases hs; exact h.goto_plain rfl fun e' he' => by cases he'; exact holds_iff.1 hold
  | iunlock p e =>
    obtain ⟨⟨hidle, hold⟩, ⟨⟩⟩ := Option.ite_none_right_eq_some.1 hs
    obtain ⟨r, hr⟩ := holds_iff.1 hold
    refine h.unlock fun q hq => ?_
    obtain ⟨r', hr'⟩ := h.inside q e hq
    have hqp : q = p := (Prod.mk.inj (Option.some.inj (hr'.symm.trans hr))).1
    rw [hqp, hidle] at hq
    cases hq
  | ialloc p k type =>
    obtain ⟨-, ⟨⟩⟩ := Option.ite_none_right_eq_some.1 hs
    exact h.congr (fun _ => rfl) (fun _ => rfl) rfl rfl rfl

end Refs

end Xv6.Icache
