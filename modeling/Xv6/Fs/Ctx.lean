/-
What a process knows in the middle of a file-system call. Its context says whether it is between
`begin_op` and `end_op`, which inodes it has locked and how many references it owns, and holds
facts that other processes cannot change: a fact about an inode rests on a reference to it, and one
about a directory's entries also on the directory's lock. `discipline` gives for each operation what
the calls have to respect (updates of the disk are inside a transaction, transactions do not nest,
an inode is put by who owns a reference, locks are taken from a directory to what it holds) and
what the context is afterwards.
-/
import Xv6.Fs.Calls

namespace Xv6.Fs

open Base Function

abbrev IsDot (name : Name) : Prop := name = dot ∨ name = dotdot

/-- What a process may know: the type of an inode; that `i` was allocated while directory `d` was
there; that `d` has an entry for `i` other than `.` and `..`. -/
inductive Fact
  | type (i : Inum) (ty : IType)
  | newer (d i : Inum)
  | entry (d i : Inum)

/-- The inode a fact is about. -/
def Fact.on : Fact → Inum
  | .type i _ => i
  | .newer d _ => d
  | .entry d _ => d

/-- The context of a process. -/
@[ext] structure Ctx where
  tx : Bool
  locks : Finset Inum
  refs : Inum → Nat
  carried : List Inum
  facts : Fact → Prop
  held : ∀ f, facts f → 0 < refs f.on
  pinned : ∀ d i, facts (.entry d i) → d ∈ locks

namespace Ctx

/-- The context at the start of a call. -/
def idle : Ctx where
  tx := false
  locks := ∅
  refs := fun _ => 0
  carried := []
  facts := fun _ => False
  held := fun _ h => h.elim
  pinned := fun _ _ h => h.elim

def setTx (c : Ctx) (b : Bool) : Ctx := { c with tx := b }

def carry (c : Ctx) (is : List Inum) : Ctx := { c with carried := is }

def lock (c : Ctx) (i : Inum) : Ctx :=
  { c with locks := insert i c.locks, pinned := fun d j h => Finset.mem_insert_of_mem (c.pinned d j h) }

/-- The entries of `d` are no longer known. -/
def cut (c : Ctx) (d : Inum) : Ctx :=
  { c with
    facts := fun f => c.facts f ∧ ∀ i, f ≠ .entry d i
    held := fun f h => c.held f h.1
    pinned := fun d' i h => c.pinned d' i h.1 }

def unlock (c : Ctx) (i : Inum) : Ctx :=
  { c.cut i with
    locks := c.locks.erase i
    pinned := fun d j h => Finset.mem_erase.2 ⟨fun hd => h.2 j (by rw [hd]), c.pinned d j h.1⟩ }

def addRef (c : Ctx) (i : Inum) : Ctx :=
  { c with
    refs := update c.refs i (c.refs i + 1)
    held := fun f h => by
      have := c.held f h
      by_cases hf : f.on = i
      · simp [hf]
      · simpa [hf] using this }

/-- One reference less; with the last one go the facts about the inode. -/
def drop (c : Ctx) (i : Inum) : Ctx :=
  { c with
    refs := update c.refs i (c.refs i - 1)
    facts := fun f => c.facts f ∧ (f.on = i → 1 < c.refs i)
    held := fun f h => by
      by_cases hf : f.on = i
      · have := h.2 hf; simp only [hf, update_self]; omega
      · simpa [hf] using c.held f h.1
    pinned := fun d j h => c.pinned d j h.1 }

def put (c : Ctx) (i : Inum) : Ctx := { c.drop i with carried := c.carried.erase i }

def forget (c : Ctx) (i : Inum) : Ctx :=
  { c with
    facts := fun f => c.facts f ∧ f.on ≠ i
    held := fun f h => c.held f h.1
    pinned := fun d j h => c.pinned d j h.1 }

/-- The context has what fact `f` rests on. -/
def Supports (c : Ctx) (f : Fact) : Prop := 0 < c.refs f.on ∧ ∀ d i, f = .entry d i → d ∈ c.locks

def learn (c : Ctx) (f : Fact) : Ctx :=
  { c with
    facts := fun g => c.facts g ∨ g = f ∧ c.Supports f
    held := fun g h => h.elim (c.held g) fun h => h.1 ▸ h.2.1
    pinned := fun d i h => h.elim (c.pinned d i) fun h => h.2.2 d i h.1.symm }

/-- `i` is newer than every inode whose type is known. -/
def alloc (c : Ctx) (i : Inum) : Ctx :=
  { c with
    facts := fun g => c.facts g ∨ ∃ d ty, c.facts (.type d ty) ∧ g = .newer d i
    held := fun g h => by
      rcases h with h | ⟨d, ty, h, rfl⟩
      · exact c.held g h
      · exact c.held (.type d ty) h
    pinned := fun d j h => by
      rcases h with h | ⟨_, _, _, h⟩
      · exact c.pinned d j h
      · cases h }

/-! ## The order -/

/-- The same context with at least the same facts. -/
structure Le (c c' : Ctx) : Prop where
  tx : c.tx = c'.tx
  locks : c.locks = c'.locks
  refs : c.refs = c'.refs
  carried : c.carried = c'.carried
  facts : ∀ f, c.facts f → c'.facts f

instance : Preorder Ctx where
  le := Le
  le_refl _ := ⟨rfl, rfl, rfl, rfl, fun _ h => h⟩
  le_trans _ _ _ h h' :=
    ⟨h.tx.trans h'.tx, h.locks.trans h'.locks, h.refs.trans h'.refs, h.carried.trans h'.carried,
      fun f hf => h'.facts f (h.facts f hf)⟩

variable {c c' : Ctx}

section

variable (h : c ≤ c')

include h

theorem setTx_mono (b : Bool) : c.setTx b ≤ c'.setTx b := ⟨rfl, h.locks, h.refs, h.carried, h.facts⟩

theorem carry_mono (is : List Inum) : c.carry is ≤ c'.carry is := ⟨h.tx, h.locks, h.refs, rfl, h.facts⟩

theorem lock_mono (i : Inum) : c.lock i ≤ c'.lock i :=
  ⟨h.tx, congrArg (insert i) h.locks, h.refs, h.carried, h.facts⟩

theorem cut_mono (d : Inum) : c.cut d ≤ c'.cut d :=
  ⟨h.tx, h.locks, h.refs, h.carried, fun f hf => ⟨h.facts f hf.1, hf.2⟩⟩

theorem unlock_mono (i : Inum) : c.unlock i ≤ c'.unlock i :=
  ⟨h.tx, congrArg (Finset.erase · i) h.locks, h.refs, h.carried, fun f hf => ⟨h.facts f hf.1, hf.2⟩⟩

theorem addRef_mono (i : Inum) : c.addRef i ≤ c'.addRef i :=
  ⟨h.tx, h.locks, by simp only [addRef, h.refs], h.carried, h.facts⟩

theorem drop_mono (i : Inum) : c.drop i ≤ c'.drop i :=
  ⟨h.tx, h.locks, by simp only [drop, h.refs], h.carried, fun f hf => ⟨h.facts f hf.1, h.refs ▸ hf.2⟩⟩

theorem put_mono (i : Inum) : c.put i ≤ c'.put i :=
  ⟨h.tx, h.locks, (drop_mono h i).refs, congrArg (List.erase · i) h.carried, (drop_mono h i).facts⟩

theorem forget_mono (i : Inum) : c.forget i ≤ c'.forget i :=
  ⟨h.tx, h.locks, h.refs, h.carried, fun f hf => ⟨h.facts f hf.1, hf.2⟩⟩

theorem learn_mono (f : Fact) : c.learn f ≤ c'.learn f :=
  ⟨h.tx, h.locks, h.refs, h.carried, fun g hg => hg.imp (h.facts g) fun hg =>
    ⟨hg.1, h.refs ▸ hg.2.1, h.locks ▸ hg.2.2⟩⟩

theorem alloc_mono (i : Inum) : c.alloc i ≤ c'.alloc i :=
  ⟨h.tx, h.locks, h.refs, h.carried, fun g hg => hg.imp (h.facts g) fun ⟨d, ty, hd, hg⟩ => ⟨d, ty, h.facts _ hd, hg⟩⟩

end

theorem le_learn (c : Ctx) (f : Fact) : c ≤ c.learn f := ⟨rfl, rfl, rfl, rfl, fun _ h => .inl h⟩

theorem le_alloc (c : Ctx) (i : Inum) : c ≤ c.alloc i := ⟨rfl, rfl, rfl, rfl, fun _ h => .inl h⟩

/-! ## The rules -/

/-- May the process wait for the lock of `i`? `make_duplicate` and an `iput` do so whatever they
hold; elsewhere what is locked is a directory, and `i` one of its entries or newer. -/
def MayWait (c : Ctx) (dup : Bool) (i : Inum) (put : Bool) : Prop :=
  dup = true ∨ put = true ∨ ∀ d ∈ c.locks, c.facts (.type d .dir) ∧ (c.facts (.entry d i) ∨ c.facts (.newer d i))

theorem MayWait.mono {dup put : Bool} {i : Inum} (h : c ≤ c') (hw : c.MayWait dup i put) : c'.MayWait dup i put := by
  refine hw.imp_right fun hw => hw.imp_right fun hw d hd => ?_
  obtain ⟨hty, he⟩ := hw d (h.locks ▸ hd)
  exact ⟨h.facts _ hty, he.imp (h.facts _) (h.facts _)⟩

/-- May the process give directory `d` an entry for `i`? -/
def MayLink (c : Ctx) (d : Inum) (name : Name) (i : Inum) : Prop :=
  IsDot name ∨ c.facts (.newer d i) ∨ ∃ ty, ty ≠ .dir ∧ c.facts (.type i ty)

theorem MayLink.mono {d i : Inum} {name : Name} (h : c ≤ c') (hl : c.MayLink d name i) : c'.MayLink d name i :=
  hl.imp_right fun hl => hl.imp (h.facts _) fun ⟨ty, hty, hf⟩ => ⟨ty, hty, h.facts _ hf⟩

/-- The context after `dirlookup` has found `i`. -/
def found (c : Ctx) (d : Inum) (name : Name) (i : Inum) : Ctx := if IsDot name then c else c.learn (.entry d i)

theorem found_mono (h : c ≤ c') (d : Inum) (name : Name) (i : Inum) : c.found d name i ≤ c'.found d name i := by
  unfold found
  split
  · exact h
  · exact learn_mono h _

theorem le_found (c : Ctx) (d : Inum) (name : Name) (i : Inum) : c ≤ c.found d name i := by
  unfold found
  split
  · exact le_refl c
  · exact le_learn c _

/-- What an operation asks of the context, and the context after it. -/
def wp (dup : Bool) (c : Ctx) : (o : Op) → (o.Ret → Ctx → Prop) → Prop
  | .beginOp, Q => c.tx = false ∧ Q () (c.setTx true)
  | .endOp, Q => c.tx = true ∧ ∀ last, Q last (c.setTx false)
  | .commit, Q => Q () c
  | .acquire i put, Q => c.MayWait dup i put ∧ (i ∉ c.locks → Q () (c.lock i))
  | .load i, Q =>
    ∀ ty, ty ≠ .free → (∀ ty', c.facts (.type i ty') → ty' = ty) → Q () (c.learn (.type i ty))
  | .release i _, Q => i ∈ c.locks → Q () (c.unlock i)
  | .iget i, Q => Q () (c.addRef i)
  | .idupCwd, Q => ∀ i, Q i (c.addRef i)
  | .iputFree i, Q =>
    0 < c.refs i ∧ (c.tx = true ∨ i ∈ c.carried) ∧ Q false c ∧ (c.refs i = 1 → Q true (c.forget i))
  | .putRef i, Q => 0 < c.refs i ∧ Q () (c.put i)
  | .stat i, Q => ∀ st : Inode, (∀ ty, c.facts (.type i ty) → st.type = ty) → Q st c
  | .dirFind d name, Q => Q none c ∧ ∀ off i, Q (some (off, i)) (c.found d name i)
  | .addEnt d name i, Q => c.tx = true ∧ d ∈ c.locks ∧ c.MayLink d name i ∧ Q () (c.cut d)
  | .clearEnt d _, Q => c.tx = true ∧ d ∈ c.locks ∧ Q () (c.cut d)
  | .addNlink _ _, Q => c.tx = true ∧ Q () c
  | .initInode _ _ _, Q => c.tx = true ∧ Q () c
  | .iallocTry i _, Q => c.tx = true ∧ Q false c ∧ Q true (c.alloc i)
  | .ninodes, Q => ∀ n, Q n c
  | .readi _ _ _, Q => ∀ r, Q r c
  | .writei _ _ _, Q => c.tx = true ∧ ∀ r, Q r c
  | .console _, Q => ∀ r, Q r c
  | .filealloc, Q => ∀ b, Q b c
  | .fileFree, Q => Q () c
  | .fdalloc, Q => ∀ fd, Q fd c
  | .getFile _, Q => ∀ f, Q f c
  | .setFile _ i _ _, Q => 0 < c.refs i ∧ Q () (c.drop i)
  | .setOff _ _, Q => Q () c
  | .takeFile _, Q => Q none c ∧ Q (some none) c ∧ ∀ i, Q (some (some i)) (c.addRef i)
  | .swapCwd i, Q => 0 < c.refs i ∧ ∀ old, Q old ((c.drop i).addRef old)
  | .carry is, Q => (∀ i ∈ is, ∃ ty, c.facts (.type i ty)) ∧ Q () (c.carry is)
  | .panic, _ => True

theorem wp_imp {dup : Bool} {c : Ctx} {o : Op} {Q Q' : o.Ret → Ctx → Prop} (hQ : ∀ r c', Q r c' → Q' r c')
    (h : c.wp dup o Q) : c.wp dup o Q' := by
  cases o with
  | beginOp | putRef i | addNlink i delta | initInode i major minor | setFile fd i readable writable | carry is =>
    exact ⟨h.1, hQ _ _ h.2⟩
  | endOp => exact ⟨h.1, fun b => hQ _ _ (h.2 b)⟩
  | commit | iget i | fileFree | setOff fd off => exact hQ _ _ h
  | acquire i put => exact ⟨h.1, fun hi => hQ _ _ (h.2 hi)⟩
  | load i => exact fun ty hty hi => hQ _ _ (h ty hty hi)
  | release i put => exact fun hi => hQ _ _ (h hi)
  | idupCwd => exact fun i => hQ _ _ (h i)
  | iputFree i => exact ⟨h.1, h.2.1, hQ _ _ h.2.2.1, fun hr => hQ _ _ (h.2.2.2 hr)⟩
  | stat i => exact fun st hst => hQ _ _ (h st hst)
  | dirFind d name => exact ⟨hQ _ _ h.1, fun off i => hQ _ _ (h.2 off i)⟩
  | addEnt d name i => exact ⟨h.1, h.2.1, h.2.2.1, hQ _ _ h.2.2.2⟩
  | clearEnt d off => exact ⟨h.1, h.2.1, hQ _ _ h.2.2⟩
  | iallocTry i ty => exact ⟨h.1, hQ _ _ h.2.1, hQ _ _ h.2.2⟩
  | ninodes => exact fun n => hQ _ _ (h n)
  | readi i off n | console n => exact fun r => hQ _ _ (h r)
  | writei i off bytes => exact ⟨h.1, fun r => hQ _ _ (h.2 r)⟩
  | filealloc => exact fun b => hQ _ _ (h b)
  | fdalloc => exact fun fd => hQ _ _ (h fd)
  | getFile fd => exact fun f => hQ _ _ (h f)
  | takeFile fd => exact ⟨hQ _ _ h.1, hQ _ _ h.2.1, fun i => hQ _ _ (h.2.2 i)⟩
  | swapCwd i => exact ⟨h.1, fun old => hQ _ _ (h.2 old)⟩
  | panic => trivial

end Ctx

/-- The rules for `make_duplicate` (`dup`) and for the other calls. -/
def discipline (dup : Bool) : Logic Op Op.Ret Ctx where
  wp c := c.wp dup
  mono := Ctx.wp_imp

theorem discipline_upward (dup : Bool) : (discipline dup).Upward := by
  intro o Q hQ c c' hc h
  cases o with
  | beginOp => exact ⟨hc.tx ▸ h.1, hQ _ (Ctx.setTx_mono hc _) h.2⟩
  | endOp => exact ⟨hc.tx ▸ h.1, fun b => hQ _ (Ctx.setTx_mono hc _) (h.2 b)⟩
  | commit | fileFree | setOff fd off => exact hQ _ hc h
  | acquire i put => exact ⟨h.1.mono hc, fun hi => hQ _ (Ctx.lock_mono hc i) (h.2 (hc.locks ▸ hi))⟩
  | load i =>
    exact fun ty hty hi => hQ _ (Ctx.learn_mono hc _) (h ty hty fun ty' hf => hi ty' (hc.facts _ hf))
  | release i put => exact fun hi => hQ _ (Ctx.unlock_mono hc i) (h (hc.locks ▸ hi))
  | iget i => exact hQ _ (Ctx.addRef_mono hc i) h
  | idupCwd => exact fun i => hQ _ (Ctx.addRef_mono hc i) (h i)
  | iputFree i =>
    exact ⟨hc.refs ▸ h.1, hc.tx ▸ hc.carried ▸ h.2.1, hQ _ hc h.2.2.1, fun hr =>
      hQ _ (Ctx.forget_mono hc i) (h.2.2.2 (hc.refs ▸ hr))⟩
  | putRef i => exact ⟨hc.refs ▸ h.1, hQ _ (Ctx.put_mono hc i) h.2⟩
  | stat i => exact fun st hst => hQ _ hc (h st fun ty hf => hst ty (hc.facts _ hf))
  | dirFind d name => exact ⟨hQ _ hc h.1, fun off i => hQ _ (Ctx.found_mono hc d name i) (h.2 off i)⟩
  | addEnt d name i =>
    exact ⟨hc.tx ▸ h.1, hc.locks ▸ h.2.1, h.2.2.1.mono hc, hQ _ (Ctx.cut_mono hc d) h.2.2.2⟩
  | clearEnt d off => exact ⟨hc.tx ▸ h.1, hc.locks ▸ h.2.1, hQ _ (Ctx.cut_mono hc d) h.2.2⟩
  | addNlink i delta | initInode i major minor => exact ⟨hc.tx ▸ h.1, hQ _ hc h.2⟩
  | iallocTry i ty => exact ⟨hc.tx ▸ h.1, hQ _ hc h.2.1, hQ _ (Ctx.alloc_mono hc i) h.2.2⟩
  | ninodes => exact fun n => hQ _ hc (h n)
  | readi i off n | console n => exact fun r => hQ _ hc (h r)
  | writei i off bytes => exact ⟨hc.tx ▸ h.1, fun r => hQ _ hc (h.2 r)⟩
  | filealloc => exact fun b => hQ _ hc (h b)
  | fdalloc => exact fun fd => hQ _ hc (h fd)
  | getFile fd => exact fun f => hQ _ hc (h f)
  | setFile fd i readable writable => exact ⟨hc.refs ▸ h.1, hQ _ (Ctx.drop_mono hc i) h.2⟩
  | takeFile fd => exact ⟨hQ _ hc h.1, hQ _ hc h.2.1, fun i => hQ _ (Ctx.addRef_mono hc i) (h.2.2 i)⟩
  | swapCwd i =>
    exact ⟨hc.refs ▸ h.1, fun old => hQ _ (Ctx.addRef_mono (Ctx.drop_mono hc i) old) (h.2 old)⟩
  | carry is =>
    exact ⟨fun i hi => (h.1 i hi).imp fun ty hf => hc.facts _ hf, hQ _ (Ctx.carry_mono hc is) h.2⟩
  | panic => trivial

end Xv6.Fs
