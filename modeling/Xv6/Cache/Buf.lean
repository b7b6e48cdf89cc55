/-
The buffer cache, `bio.c`, for any number of buffers and of processes. `bget` and the end of `brelse` are
one step each, under `bcache.lock`: the loops over the list of buffers, forwards for the block and
backwards for a buffer to recycle, and the splice that moves a buffer to the front. Between them a
process waits for the buffer's sleep lock, or has it; a process has a buffer from `bget` until the
`refcnt--` of its `brelse`, and may have several. The holder of a buffer marks it in `log_write` and
`bwrite`, and `iderw` clears the mark; the other data of a buffer is not modelled.
-/
import Xv6.Base.Run
import Xv6.Base.Count
import Xv6.Base.Dlist

namespace Xv6.Cache

open Base
open Function (update update_self comp_update)

variable {n : Nat} {P : Type} {l l1 l2 : List (Fin n)} {b : Fin n} {p : P}

/-- A buffer, or `bcache.head`. -/
abbrev Node (n : Nat) := Option (Fin n)

/-- `struct buf`, without its links and its lock. `assigned` remembers whether `bget` has given it out for a
block; before that it has the zeroes of `bcache`. -/
structure Buf where
  dev : Nat := 0
  blockno : Nat := 0
  refcnt : Nat := 0
  valid : Bool := false
  dirty : Bool := false
  assigned : Bool := false
  deriving DecidableEq, Repr

def Buf.key (x : Buf) : Nat × Nat := (x.dev, x.blockno)

/-- Where a process is: `waiting` is the `acquiresleep` of `bget`, `leaving` is `brelse` after its
`releasesleep`. -/
inductive Pc (n : Nat)
  | idle
  | waiting (b : Fin n)
  | leaving (b : Fin n)
  deriving DecidableEq, Repr

/-- The buffer that a process waits for or leaves. -/
def Pc.on : Pc n → Option (Fin n)
  | .idle => none
  | .waiting b | .leaving b => some b

/-- The cache; `lock b` is the process that has the sleep lock of `b`. -/
structure Bcache (n : Nat) (P : Type) where
  links : Links (Node n)
  buf : Fin n → Buf
  lock : Fin n → Option P
  pc : P → Pc n

/-- The list that `binit` makes. -/
def binitLinks (n : Nat) : Links (Node n) :=
  (List.finRange n).foldl (fun r b => r.pushFront none (some b)) ⟨fun _ => none, fun _ => none⟩

def binit (s : Bcache n P) : Prop :=
  s = { links := binitLinks n, buf := fun _ => {}, lock := fun _ => none, pc := fun _ => .idle }

/-- The first loop of `bget`. -/
def Bcache.cached (s : Bcache n P) (dev blockno : Nat) : Option (Fin n) :=
  (search s.links.next none (fun x => x.any fun b => (s.buf b).dev = dev ∧ (s.buf b).blockno = blockno) (n + 1)
    (s.links.next none)).join

/-- The second loop of `bget`. -/
def Bcache.unused (s : Bcache n P) : Option (Fin n) :=
  (search s.links.prev none (fun x => x.any fun b => (s.buf b).refcnt = 0 ∧ (s.buf b).dirty = false) (n + 1)
    (s.links.prev none)).join

def Bcache.modBuf (s : Bcache n P) (b : Fin n) (f : Buf → Buf) : Bcache n P :=
  { s with buf := update s.buf b (f (s.buf b)) }

inductive Act (n : Nat) (P : Type)
  | bget (p : P) (dev blockno : Nat)
  | acquire (p : P)
  | mark (p : P) (b : Fin n)
  | iderw (p : P) (b : Fin n)
  | brelse (p : P) (b : Fin n)
  | leave (p : P)

variable [DecidableEq P]

def Bcache.goto (s : Bcache n P) (p : P) (x : Pc n) : Bcache n P := { s with pc := update s.pc p x }

def Bcache.setLock (s : Bcache n P) (b : Fin n) (o : Option P) : Bcache n P := { s with lock := update s.lock b o }

/-- `bget` under `bcache.lock`. -/
def bget (s : Bcache n P) (p : P) (dev blockno : Nat) : Option (Bcache n P) :=
  match s.cached dev blockno with
  | some b => some ((s.modBuf b fun x => { x with refcnt := x.refcnt + 1, assigned := true }).goto p (.waiting b))
  | none =>
    match s.unused with
    | some b =>
      some ((s.modBuf b fun _ => { dev := dev, blockno := blockno, refcnt := 1, assigned := true }).goto p (.waiting b))
    | none => none  -- panic("bget: no buffers")

/-- `brelse` under `bcache.lock`. -/
def brelseLocked (s : Bcache n P) (b : Fin n) : Bcache n P :=
  let s := s.modBuf b fun x => { x with refcnt := x.refcnt - 1 }
  if (s.buf b).refcnt = 0 then { s with links := (s.links.unlink (some b)).pushFront none (some b) } else s

/-- A step; `mark` is the `b->flags |= B_DIRTY` of `log_write` and of `bwrite`. -/
def step (s : Bcache n P) : Act n P → Option (Bcache n P)
  | .bget p dev blockno => if s.pc p = .idle then bget s p dev blockno else none
  | .acquire p =>
    match s.pc p with
    | .waiting b => if s.lock b = none then some ((s.setLock b (some p)).goto p .idle) else none
    | _ => none
  | .mark p b => if s.lock b = some p then some (s.modBuf b fun x => { x with dirty := true }) else none
  | .iderw p b =>
    if s.lock b = some p ∧ ¬ ((s.buf b).valid = true ∧ (s.buf b).dirty = false) then
      some (s.modBuf b fun x => { x with valid := true, dirty := false })
    else none
  | .brelse p b =>
    if s.pc p = .idle ∧ s.lock b = some p then some ((s.setLock b none).goto p (.leaving b)) else none
  | .leave p =>
    match s.pc p with
    | .leaving b => some ((brelseLocked s b).goto p .idle)
    | _ => none

@[simp] theorem goto_buf (s : Bcache n P) (p : P) (x : Pc n) : (s.goto p x).buf = s.buf := rfl

/-! ## The list -/

/-- The list of buffers, from the most to the least recently used. -/
def Lru (r : Links (Node n)) (l : List (Fin n)) : Prop := Dlist r none (l.map some) ∧ ∀ b, b ∈ l

namespace Lru

variable {r : Links (Node n)}

theorem nodup (h : Lru r l) : l.Nodup := (List.nodup_cons.1 h.1.nodup).2.of_map some

theorem length (h : Lru r l) : l.length = n := by
  have huniv : l.toFinset = Finset.univ := Finset.eq_univ_iff_forall.2 fun b => List.mem_toFinset.2 (h.2 b)
  rw [← List.toFinset_card_of_nodup h.nodup, huniv, Finset.card_univ, Fintype.card_fin]

theorem search_next (h : Lru r l) (p : Fin n → Bool) :
    (search r.next none (fun x => x.any p) (n + 1) (r.next none)).join = l.find? p := by
  have hs := h.1.search_next fun x : Node n => x.any p
  rw [List.length_map, h.length] at hs
  rw [hs, List.find?_map]
  have hp : (fun x : Node n => x.any p) ∘ some = p := rfl
  rw [hp]
  cases l.find? p <;> rfl

theorem search_prev (h : Lru r l) (p : Fin n → Bool) :
    (search r.prev none (fun x => x.any p) (n + 1) (r.prev none)).join = l.reverse.find? p := by
  have hs := h.1.search_prev fun x : Node n => x.any p
  rw [List.length_map, h.length] at hs
  rw [hs, ← List.map_reverse, List.find?_map]
  have hp : (fun x : Node n => x.any p) ∘ some = p := rfl
  rw [hp]
  cases l.reverse.find? p <;> rfl

theorem moveFront (h : Lru r (l1 ++ b :: l2)) :
    Lru ((r.unlink (some b)).pushFront none (some b)) (b :: (l1 ++ l2)) := by
  refine ⟨?_, fun c => ?_⟩
  · have hd := h.1
    rw [List.map_append, List.map_cons] at hd
    have := hd.moveFront
    rwa [← List.map_append, ← List.map_cons] at this
  · have hc := h.2 c; simp only [List.mem_append, List.mem_cons] at hc ⊢; tauto

theorem follow (h : Lru r l) : Base.follow r.next (n + 1) none = l.map some ++ [none] ∧
    Base.follow r.prev (n + 1) none = l.reverse.map some ++ [none] := by
  have hnext := h.1.follow_next
  have hprev := h.1.follow_prev
  rw [List.length_map, h.length] at hnext hprev
  rw [List.map_reverse]
  exact ⟨hnext, hprev⟩

end Lru

theorem foldl_pushFront : ∀ (bs l : List (Fin n)) {r : Links (Node n)}, Dlist r none (l.map some) → (bs ++ l).Nodup →
    Dlist (bs.foldl (fun r b => r.pushFront none (some b)) r) none ((bs.reverse ++ l).map some)
  | [], l, _, h, _ => h
  | b :: bs, l, r, h, hn => by
    rw [List.cons_append, List.nodup_cons] at hn
    have hb : b ∉ l := fun hm => hn.1 (List.mem_append_right _ hm)
    have hpush : Dlist (r.pushFront none (some b)) none ((b :: l).map some) := h.pushFront (by simpa using hb)
    have := foldl_pushFront bs (b :: l) hpush (List.nodup_middle.2 (List.nodup_cons.2 hn))
    simpa using this

theorem binit_lru (n : Nat) : Lru (binitLinks n) (List.finRange n).reverse := by
  constructor
  · have := foldl_pushFront (List.finRange n) [] (Dlist.empty none) (by simpa using List.nodup_finRange n)
    rwa [List.append_nil] at this
  · intro b; exact List.mem_reverse.2 (List.mem_finRange b)

/-! ## Updates -/

variable {s : Bcache n P}

section

omit [DecidableEq P]

variable {c : Fin n}

@[simp] theorem modBuf_self (f : Buf → Buf) : (s.modBuf b f).buf b = f (s.buf b) := by simp [Bcache.modBuf]

theorem modBuf_of_ne (h : c ≠ b) (f : Buf → Buf) : (s.modBuf b f).buf c = s.buf c := by simp [Bcache.modBuf, h]

theorem modBuf_eq {β : Type} (π : Buf → β) {f : Buf → Buf} (h : π (f (s.buf b)) = π (s.buf b)) (c : Fin n) :
    π ((s.modBuf b f).buf c) = π (s.buf c) := by
  by_cases hc : c = b
  · rw [hc, modBuf_self, h]
  · rw [modBuf_of_ne hc]

theorem cached_eq_some (h : Lru s.links l) {dev blockno : Nat} (hb : s.cached dev blockno = some b) :
    ∃ l1 l2, l = l1 ++ b :: l2 ∧ (s.buf b).key = (dev, blockno) ∧ ∀ c ∈ l1, (s.buf c).key ≠ (dev, blockno) := by
  unfold Bcache.cached at hb
  rw [h.search_next, List.find?_eq_some_iff_append] at hb
  obtain ⟨hkey, l1, l2, rfl, hl1⟩ := hb
  refine ⟨l1, l2, rfl, ?_, fun c hc heq => ?_⟩
  · rw [decide_eq_true_eq] at hkey; exact Prod.ext hkey.1 hkey.2
  · have := hl1 c hc
    rw [Prod.ext_iff] at heq
    simp [show (s.buf c).dev = dev from heq.1, show (s.buf c).blockno = blockno from heq.2] at this

theorem cached_eq_none (h : Lru s.links l) {dev blockno : Nat} (hb : s.cached dev blockno = none) (c : Fin n) :
    (s.buf c).key ≠ (dev, blockno) := by
  unfold Bcache.cached at hb
  rw [h.search_next, List.find?_eq_none] at hb
  intro heq
  rw [Prod.ext_iff] at heq
  exact hb c (h.2 c) (decide_eq_true heq)

theorem brelseLocked_buf (s : Bcache n P) (b : Fin n) :
    (brelseLocked s b).buf = (s.modBuf b fun x => { x with refcnt := x.refcnt - 1 }).buf := by
  unfold brelseLocked
  dsimp only
  split <;> rfl

theorem brelseLocked_pc (s : Bcache n P) (b : Fin n) : (brelseLocked s b).pc = s.pc := by
  unfold brelseLocked
  dsimp only
  split <;> rfl

theorem brelseLocked_lock (s : Bcache n P) (b : Fin n) : (brelseLocked s b).lock = s.lock := by
  unfold brelseLocked
  dsimp only
  split <;> rfl

theorem brelseLocked_links (s : Bcache n P) (b : Fin n) : (brelseLocked s b).links = s.links ∨
    (brelseLocked s b).links = (s.links.unlink (some b)).pushFront none (some b) := by
  unfold brelseLocked
  dsimp only
  split
  · exact .inr rfl
  · exact .inl rfl

theorem unused_eq_some (h : Lru s.links l) (hb : s.unused = some b) :
    (s.buf b).refcnt = 0 ∧ (s.buf b).dirty = false := by
  unfold Bcache.unused at hb
  rw [h.search_prev] at hb
  simpa using List.find?_some hb

end

/-! ## The users of a buffer -/

section

variable [Fintype P]

/-- The processes that wait for `b`, have it, or leave it. -/
def Bcache.users (s : Bcache n P) (b : Fin n) : Nat :=
  pointers (fun p => (s.pc p).on) b + if (s.lock b).isSome then 1 else 0

omit [DecidableEq P] in
theorem users_setLock (s : Bcache n P) (b c : Fin n) (o : Option P) :
    (s.setLock b o).users c + (if c = b ∧ (s.lock b).isSome then 1 else 0) =
      s.users c + if c = b ∧ o.isSome then 1 else 0 := by
  unfold Bcache.users Bcache.setLock
  by_cases hc : c = b
  · subst hc; simp only [update_self, true_and]; omega
  · simp [hc]

theorem users_goto (s : Bcache n P) (p : P) (x : Pc n) (b : Fin n) :
    (s.goto p x).users b + (if (s.pc p).on = some b then 1 else 0) = s.users b + if x.on = some b then 1 else 0 := by
  have hu := pointers_update (fun q => (s.pc q).on) p x.on b
  have hon : (fun q => ((s.goto p x).pc q).on) = update (fun q => (s.pc q).on) p x.on :=
    comp_update Pc.on s.pc p x
  have hlock : (s.goto p x).lock = s.lock := rfl
  unfold Bcache.users
  rw [hon, hlock]
  omega

theorem users_waiting (hp : s.pc p = .idle) (b c : Fin n) :
    (s.goto p (.waiting b)).users c = s.users c + if c = b then 1 else 0 := by
  have hu := users_goto s p (.waiting b) c
  simp only [hp, Pc.on, reduceCtorEq, if_false, Option.some.injEq, eq_comm (a := b)] at hu
  exact hu

omit [DecidableEq P] in
theorem brelseLocked_users (s : Bcache n P) (b c : Fin n) : (brelseLocked s b).users c = s.users c := by
  unfold Bcache.users; rw [brelseLocked_pc, brelseLocked_lock]

end

/-! ## The invariant -/

/-- Of two buffers for the same block the second has not been given out. -/
def Ordered (f : Fin n → Buf) (l : List (Fin n)) : Prop :=
  l.Pairwise fun c b => (f c).key = (f b).key → (f b).assigned = false

namespace Ordered

variable {f g : Fin n → Buf}

theorem eq_of_key (h : Ordered f l) {c : Fin n} (hb : b ∈ l) (hc : c ∈ l) (hab : (f b).assigned = true)
    (hac : (f c).assigned = true) (hkey : (f b).key = (f c).key) : b = c := by
  by_contra hne
  have hsymm : l.Pairwise fun c b => (f c).key = (f b).key → ¬ ((f c).assigned = true ∧ (f b).assigned = true) :=
    h.imp fun hcb hk hboth => Bool.false_ne_true ((hcb hk).symm.trans hboth.2)
  have : Std.Symm fun c b => (f c).key = (f b).key → ¬ ((f c).assigned = true ∧ (f b).assigned = true) :=
    ⟨fun x y hxy hk hboth => hxy hk.symm hboth.symm⟩
  exact hsymm.forall hb hc hne hkey ⟨hab, hac⟩

theorem congr (h : Ordered f l) (hkey : ∀ c, (g c).key = (f c).key) (has : ∀ c, (g c).assigned = (f c).assigned) :
    Ordered g l := by
  refine List.Pairwise.imp (fun {x y} hxy => ?_) h
  rwa [hkey, hkey, has]

theorem moveFront (h : Ordered f (l1 ++ b :: l2)) (hb : (f b).assigned = true) : Ordered f (b :: (l1 ++ l2)) := by
  obtain ⟨h1, h2, h12⟩ := List.pairwise_append.1 h
  obtain ⟨hb2, h2⟩ := List.pairwise_cons.1 h2
  refine List.pairwise_cons.2 ⟨fun c hc hkey => ?_,
    List.pairwise_append.2 ⟨h1, h2, fun x hx y hy => h12 x hx y (.tail _ hy)⟩⟩
  rcases List.mem_append.1 hc with hc | hc
  · exact absurd hb (by rw [h12 c hc b (.head _) hkey.symm]; exact Bool.false_ne_true)
  · exact hb2 c hc hkey

/-- A buffer is given out for a block that none before it has. -/
theorem assign (h : Ordered f (l1 ++ b :: l2)) (hn : (l1 ++ b :: l2).Nodup) (hg : ∀ c, c ≠ b → g c = f c)
    (h1 : ∀ c ∈ l1, (f c).key ≠ (g b).key) (h2 : ∀ c ∈ l2, (g b).key = (f c).key → (f c).assigned = false) :
    Ordered g (l1 ++ b :: l2) := by
  have hne1 : ∀ c ∈ l1, c ≠ b := fun c hc heq => (List.nodup_append.1 hn).2.2 c hc b (.head _) heq
  have hne2 : ∀ c ∈ l2, c ≠ b := fun c hc heq => (List.nodup_cons.1 (List.nodup_append.1 hn).2.1).1 (heq ▸ hc)
  obtain ⟨hp1, hp2, hp12⟩ := List.pairwise_append.1 h
  obtain ⟨-, hp2⟩ := List.pairwise_cons.1 hp2
  refine List.pairwise_append.2 ⟨?_, List.pairwise_cons.2 ⟨fun c hc hkey => ?_, ?_⟩, fun c hc d hd hkey => ?_⟩
  · refine hp1.imp_of_mem fun {x y} hx hy hxy => ?_
    rwa [hg x (hne1 x hx), hg y (hne1 y hy)]
  · rw [hg c (hne2 c hc)] at hkey ⊢; exact h2 c hc hkey
  · refine hp2.imp_of_mem fun {x y} hx hy hxy => ?_
    rwa [hg x (hne2 x hx), hg y (hne2 y hy)]
  · rw [hg c (hne1 c hc)] at hkey
    rcases List.mem_cons.1 hd with rfl | hd
    · exact absurd hkey (h1 c hc)
    · rw [hg d (hne2 d hd)] at hkey ⊢; exact hp12 c hc d (.tail _ hd) hkey

end Ordered

variable [Fintype P]

structure Inv (s : Bcache n P) : Prop where
  list : ∃ l, Lru s.links l ∧ Ordered s.buf l
  held : ∀ b, (s.buf b).refcnt ≠ 0 → (s.buf b).assigned = true
  count : ∀ b, (s.buf b).refcnt = s.users b

omit [DecidableEq P] in
theorem inv_binit (h : binit s) : Inv s := by
  obtain rfl := h
  refine ⟨⟨_, binit_lru n, List.pairwise_of_forall fun _ _ _ => rfl⟩, fun b hb => absurd rfl hb, fun b => ?_⟩
  unfold Bcache.users
  rw [pointers_eq_zero.2 fun p => by simp [Pc.on]]
  rfl

variable {s' : Bcache n P} {a : Act n P}

namespace Inv

theorem give {f : Buf → Buf} (h : Inv s) (hp : s.pc p = .idle) (hl : Lru s.links l)
    (ho : Ordered (s.modBuf b f).buf l) (hf : (f (s.buf b)).refcnt = (s.buf b).refcnt + 1)
    (has : (f (s.buf b)).assigned = true) : Inv ((s.modBuf b f).goto p (.waiting b)) := by
  refine ⟨⟨l, hl, ho⟩, fun c hc => ?_, fun c => ?_⟩
  · rw [goto_buf] at hc ⊢
    by_cases hcb : c = b
    · rw [hcb, modBuf_self, has]
    · rw [modBuf_of_ne hcb] at hc ⊢; exact h.held c hc
  · have husers : (s.modBuf b f).users c = s.users c := rfl
    rw [users_waiting (s := s.modBuf b f) hp, husers, ← h.count c, goto_buf]
    by_cases hcb : c = b
    · rw [hcb, modBuf_self, hf, if_pos rfl]
    · rw [modBuf_of_ne hcb, if_neg hcb]; rfl

theorem bget (h : Inv s) (hp : s.pc p = .idle) {dev blockno : Nat} (hs : Cache.bget s p dev blockno = some s') :
    Inv s' := by
  obtain ⟨l, hl, ho⟩ := h.list
  unfold Cache.bget at hs
  split at hs
  · rename_i b hb
    cases hs
    obtain ⟨l1, l2, rfl, hkey, hl1⟩ := cached_eq_some hl hb
    refine h.give hp hl (ho.assign hl.nodup (fun c hc => modBuf_of_ne hc _) ?_ ?_) rfl rfl
    · intro c hc; rw [modBuf_self]; exact fun heq => hl1 c hc (heq.trans hkey)
    · intro c hc heq
      rw [modBuf_self] at heq
      exact (List.pairwise_cons.1 (List.pairwise_append.1 ho).2.1).1 c hc heq
  · rename_i hnone
    split at hs
    · rename_i b hb
      cases hs
      have hnew := cached_eq_none hl hnone
      obtain ⟨hfree, -⟩ := unused_eq_some hl hb
      obtain ⟨l1, l2, rfl⟩ := List.append_of_mem (hl.2 b)
      refine h.give hp hl (ho.assign hl.nodup (fun c hc => modBuf_of_ne hc _) ?_ ?_) (by rw [hfree]) rfl
      · intro c _; rw [modBuf_self]; exact hnew c
      · intro c _ heq; rw [modBuf_self] at heq; exact absurd heq.symm (hnew c)
    · cases hs

theorem acquire (h : Inv s) (hs : step s (.acquire p) = some s') : Inv s' := by
  simp only [step] at hs
  split at hs
  · rename_i b hp
    obtain ⟨hfree, ⟨⟩⟩ := Option.ite_none_right_eq_some.1 hs
    refine ⟨h.list, h.held, fun c => ?_⟩
    have hu := users_goto (s.setLock b (some p)) p .idle c
    have hl := users_setLock s b c (some p)
    rw [show (s.setLock b (some p)).pc p = .waiting b from hp] at hu
    simp only [Pc.on, reduceCtorEq, if_false, Option.some.injEq, hfree, Option.isSome_none, Option.isSome_some,
      and_false, and_true, eq_comm (a := b), Bool.false_eq_true] at hu hl
    have hc := h.count c
    show (s.buf c).refcnt = _
    omega
  · cases hs

theorem brelse (h : Inv s) (hs : step s (.brelse p b) = some s') : Inv s' := by
  obtain ⟨⟨hp, hl⟩, ⟨⟩⟩ := Option.ite_none_right_eq_some.1 hs
  refine ⟨h.list, h.held, fun c => ?_⟩
  have hu := users_goto (s.setLock b none) p (.leaving b) c
  have hlock := users_setLock s b c none
  rw [show (s.setLock b none).pc p = .idle from hp] at hu
  simp only [Pc.on, reduceCtorEq, if_false, Option.some.injEq, hl, Option.isSome_none, Option.isSome_some, and_false,
    and_true, eq_comm (a := b), Bool.false_eq_true] at hu hlock
  have hc := h.count c
  show (s.buf c).refcnt = _
  omega

omit [DecidableEq P] in
theorem flags {f : Buf → Buf} (h : Inv s) (hkey : (f (s.buf b)).key = (s.buf b).key)
    (has : (f (s.buf b)).assigned = (s.buf b).assigned) (hcnt : (f (s.buf b)).refcnt = (s.buf b).refcnt) :
    Inv (s.modBuf b f) := by
  obtain ⟨l, hl, ho⟩ := h.list
  refine ⟨⟨l, hl, ho.congr (modBuf_eq Buf.key hkey) (modBuf_eq Buf.assigned has)⟩, fun c hc => ?_, fun c => ?_⟩
  · rw [modBuf_eq Buf.refcnt hcnt] at hc
    rw [modBuf_eq Buf.assigned has]
    exact h.held c hc
  · rw [modBuf_eq Buf.refcnt hcnt]; exact h.count c

omit [DecidableEq P] in
theorem leaving (h : Inv s) (hp : s.pc p = .leaving b) : (s.buf b).refcnt ≠ 0 := by
  rw [h.count b]
  have hpos : 0 < pointers (fun q => (s.pc q).on) b := pointers_pos.2 ⟨p, by rw [hp]; rfl⟩
  unfold Bcache.users
  omega

theorem leave (h : Inv s) (hs : step s (.leave p) = some s') : Inv s' := by
  simp only [step] at hs
  split at hs
  · rename_i b hp
    cases hs
    obtain ⟨l, hl, ho⟩ := h.list
    have hpos := h.leaving hp
    have hbuf := brelseLocked_buf s b
    have hkey : ∀ c, ((brelseLocked s b).buf c).key = (s.buf c).key := hbuf ▸ modBuf_eq Buf.key rfl
    have has : ∀ c, ((brelseLocked s b).buf c).assigned = (s.buf c).assigned := hbuf ▸ modBuf_eq Buf.assigned rfl
    have hcnt : ∀ c, ((brelseLocked s b).buf c).refcnt + (if c = b then 1 else 0) = (s.buf c).refcnt := by
      intro c
      rw [hbuf]
      by_cases hc : c = b
      · rw [hc, modBuf_self, if_pos rfl]; exact Nat.sub_add_cancel (Nat.pos_of_ne_zero hpos)
      · rw [modBuf_of_ne hc, if_neg hc]; rfl
    refine ⟨?_, fun c hc => ?_, fun c => ?_⟩
    · show ∃ l, Lru (brelseLocked s b).links l ∧ Ordered (brelseLocked s b).buf l
      rcases brelseLocked_links s b with hlinks | hlinks
      · rw [hlinks]; exact ⟨l, hl, ho.congr hkey has⟩
      · obtain ⟨l1, l2, rfl⟩ := List.append_of_mem (hl.2 b)
        rw [hlinks]
        exact ⟨_, hl.moveFront, (ho.moveFront (h.held b hpos)).congr hkey has⟩
    · rw [goto_buf] at hc ⊢; rw [has]; exact h.held c (by have := hcnt c; omega)
    · have hu := users_goto (brelseLocked s b) p .idle c
      rw [brelseLocked_users, brelseLocked_pc, hp] at hu
      simp only [Pc.on, reduceCtorEq, if_false, Option.some.injEq, eq_comm (a := b)] at hu
      have hc := hcnt c
      have := h.count c
      rw [goto_buf]
      omega
  · cases hs

theorem step (h : Inv s) (hs : Cache.step s a = some s') : Inv s' := by
  cases a with
  | bget p dev blockno => obtain ⟨hp, hs⟩ := Option.ite_none_right_eq_some.1 hs; exact h.bget hp hs
  | acquire p => exact h.acquire hs
  | mark p b | iderw p b =>
    obtain ⟨-, ⟨⟩⟩ := Option.ite_none_right_eq_some.1 hs; exact h.flags rfl rfl rfl
  | brelse p b => exact h.brelse hs
  | leave p => exact h.leave hs

end Inv

theorem inv_reachable (h : Reachable binit step s) : Inv s :=
  Reach.inv (fun _ => inv_binit) (fun _ _ _ hi _ hs => hi.step hs) h

/-- Only `bget` gives a buffer to another block, and only one that is not in use. -/
theorem step_key (h : Inv s) (hs : step s a = some s') (hkey : (s'.buf b).key ≠ (s.buf b).key) :
    (s.buf b).refcnt = 0 ∧ (s.buf b).dirty = false := by
  obtain ⟨l, hl, -⟩ := h.list
  cases a with
  | bget p dev blockno =>
    obtain ⟨-, hs⟩ := Option.ite_none_right_eq_some.1 hs
    unfold bget at hs
    split at hs
    · rename_i c _
      cases hs
      refine absurd ?_ hkey
      rw [goto_buf]
      exact modBuf_eq Buf.key rfl b
    · split at hs
      · rename_i c hc
        cases hs
        by_cases hbc : b = c
        · rw [hbc]; exact unused_eq_some hl hc
        · refine absurd ?_ hkey
          rw [goto_buf, modBuf_of_ne hbc]
      · cases hs
  | acquire p =>
    simp only [step] at hs
    split at hs
    · obtain ⟨-, ⟨⟩⟩ := Option.ite_none_right_eq_some.1 hs; exact absurd rfl hkey
    · cases hs
  | mark p c | iderw p c =>
    obtain ⟨-, ⟨⟩⟩ := Option.ite_none_right_eq_some.1 hs
    exact absurd (modBuf_eq Buf.key rfl b) hkey
  | brelse p c => obtain ⟨-, ⟨⟩⟩ := Option.ite_none_right_eq_some.1 hs; exact absurd rfl hkey
  | leave p =>
    simp only [step] at hs
    split at hs
    · rename_i c hc
      cases hs
      refine absurd ?_ hkey
      rw [goto_buf, brelseLocked_buf]
      exact modBuf_eq Buf.key rfl b
    · cases hs

/-- Whatever the processes do after `binit`, the list visits every buffer once, both ways; no two buffers
that have been given out are for the same block; `refcnt` counts the processes that have the buffer or
wait for it; and a buffer with a reference or `B_DIRTY` is not given to another block. -/
theorem buffer_cache {s : Bcache n P} (h : Reachable binit step s) :
    (∃ l : List (Fin n), l.Nodup ∧ (∀ b, b ∈ l) ∧ follow s.links.next (n + 1) none = l.map some ++ [none] ∧
      follow s.links.prev (n + 1) none = l.reverse.map some ++ [none]) ∧
    (∀ b c, (s.buf b).assigned = true → (s.buf c).assigned = true → (s.buf b).dev = (s.buf c).dev →
      (s.buf b).blockno = (s.buf c).blockno → b = c) ∧
    (∀ b, (s.buf b).refcnt = s.users b) ∧
    ∀ a s' b, step s a = some s' → 0 < (s.buf b).refcnt ∨ (s.buf b).dirty = true →
      (s'.buf b).dev = (s.buf b).dev ∧ (s'.buf b).blockno = (s.buf b).blockno := by
  have hi := inv_reachable h
  obtain ⟨l, hl, ho⟩ := hi.list
  refine ⟨⟨l, hl.nodup, hl.2, hl.follow⟩, fun b c hb hc hdev hblk => ?_, hi.count, fun a s' b hs hb => ?_⟩
  · exact ho.eq_of_key (hl.2 b) (hl.2 c) hb hc (Prod.ext hdev hblk)
  · by_contra hne
    obtain ⟨hcnt, hdirty⟩ := step_key hi hs fun heq => hne (Prod.ext_iff.1 heq)
    rw [hcnt, hdirty] at hb
    exact hb.elim (lt_irrefl 0) Bool.false_ne_true

/-- Process `false` reads a block and marks its buffer; process `true` waits for it. -/
theorem buffer_cache_shared : ∃ s : Bcache 30 Bool, Reachable binit step s ∧ (s.buf 0).key = (1, 5) ∧
    (s.buf 0).refcnt = 2 ∧ s.users 0 = 2 := by
  have hrun : (runActs step
      ({ links := binitLinks 30, buf := fun _ => {}, lock := fun _ => none, pc := fun _ => .idle } : Bcache 30 Bool)
      [.bget false 1 5, .acquire false, .iderw false 0, .mark false 0, .bget true 1 5]).any
      (fun s => decide ((s.buf 0).key = (1, 5) ∧ (s.buf 0).refcnt = 2)) = true := by decide +kernel
  obtain ⟨s, hr, hs⟩ := exists_reachable_of_run binit rfl _ _ hrun
  obtain ⟨hkey, hcnt⟩ := of_decide_eq_true hs
  exact ⟨s, hr, hkey, hcnt, ((buffer_cache hr).2.2.1 0).symm.trans hcnt⟩

end Xv6.Cache
